import Esmetrics.Lib.FixedWidth
import Esmetrics.Lib.Lines

/-!
# The generic syntax of URLs

The path and the query of a URL with an authority: the fragment starts at the first number sign, the
query at the first question mark before it, the path at the first slash behind the authority. Dot
segments of a path are resolved from left to right, also where a dot is written with a percent sign.

A path put behind another one stays below it (`resolvePath_prefix_append`) unless its dot segments
climb above its start (`climbs`); where they do, they leave a segment in front of it
(`not_isPrefix_resolvePath_append`).
-/

namespace Esmetrics.UrlSyntax

open List

/-! ### The parts of a URL -/

/-- The text behind the authority, which ends at the first of the characters `/`, `?` and `#`. -/
def afterAuthority (url : Bytes) : Bytes :=
  ((url.dropWhile (· ≠ ':'.toUInt8)).drop 3).dropWhile (· ∉ ascii "/?#")

def path (url : Bytes) : Bytes := (afterAuthority url).takeWhile (· ∉ ascii "?#")

def query (url : Bytes) : Bytes :=
  (((afterAuthority url).takeWhile (· ≠ '#'.toUInt8)).dropWhile (· ≠ '?'.toUInt8)).tail

/-! ### Dot segments -/

/-- The spellings of a dot. -/
def dots : List Bytes := [ascii ".", ascii "%2e", ascii "%2E"]

def isDot (segment : Bytes) : Bool := segment ∈ dots

def isDotDot (segment : Bytes) : Bool := segment ∈ dots.flatMap fun s => dots.map (s ++ ·)

/-- The segments so far after one more. -/
def resolveStep (out : List Bytes) (segment : Bytes) : List Bytes :=
  if isDotDot segment then out.dropLast else if isDot segment then out else out ++ [segment]

/-- The segments without dot segments; a dot segment at the end leaves an empty one. -/
def resolve (segments : List Bytes) : List Bytes :=
  segments.foldl resolveStep [] ++
    if segments.getLast?.any fun segment => isDotDot segment || isDot segment then [[]] else []

/-- The segments of a path that starts with a slash. -/
def segments (path : Bytes) : List Bytes := (path.splitOn '/'.toUInt8).tail

/-- The path of a list of segments. -/
def pathOf (segments : List Bytes) : Bytes := segments.flatMap ('/'.toUInt8 :: ·)

/-- The path with its dot segments resolved. -/
def resolvePath (path : Bytes) : Bytes := pathOf (resolve (segments path))

/-- The dot segments climb above the place `depth` segments above the start. -/
def climbs : ℕ → List Bytes → Bool
  | _, [] => false
  | depth, segment :: segments =>
    if isDotDot segment then depth = 0 || climbs (depth - 1) segments
    else if isDot segment then climbs depth segments
    else climbs (depth + 1) segments

example : resolvePath (ascii "/a/b/../%2e%2E/./c/%2e") = ascii "/c/" ∧
    climbs 0 (segments (ascii "/a/../.%2e/b")) = true := by decide +kernel

/-! ### Parts of a text -/

theorem segments_cons (s : Bytes) :
    segments ('/'.toUInt8 :: s) = s.splitOn '/'.toUInt8 := by
  rw [segments, ← nil_append ('/'.toUInt8 :: s), splitOn_append_cons_self, splitOn_nil]
  rfl

/-- The segments of a path put behind another one. -/
theorem segments_append (p s : Bytes) :
    segments (p ++ '/'.toUInt8 :: s) = segments p ++ segments ('/'.toUInt8 :: s) := by
  rw [segments_cons, segments, segments, splitOn_append_cons_self, tail_append_of_ne_nil]
  exact splitOn_ne_nil _ _

@[simp] theorem pathOf_append (l l' : List Bytes) : pathOf (l ++ l') = pathOf l ++ pathOf l' :=
  flatMap_append

theorem head?_pathOf (l : List Bytes) (h : l ≠ []) : (pathOf l).head? = some '/'.toUInt8 := by
  obtain ⟨segment, l, rfl⟩ := exists_cons_of_ne_nil h
  rfl

theorem isDelimiter : '?'.toUInt8 ∈ ascii "?#" ∧ '#'.toUInt8 ∈ ascii "?#" := by decide

theorem eq_or_eq_of_delimiter : ∀ c ∈ ascii "?#", c = '?'.toUInt8 ∨ c = '#'.toUInt8 := by
  intro c hc
  simpa [ascii] using hc

theorem afterAuthority_append {scheme authority rest : Bytes} (hscheme : ':'.toUInt8 ∉ scheme)
    (hauthority : ∀ c ∈ authority, c ∉ ascii "/?#") (hrest : ∀ c ∈ rest.head?, c ∈ ascii "/?#") :
    afterAuthority (scheme ++ ascii "://" ++ authority ++ rest) = rest := by
  have hdrop : (scheme ++ ascii "://" ++ authority ++ rest).dropWhile (· ≠ ':'.toUInt8) =
      ascii "://" ++ (authority ++ rest) := by
    rw [append_assoc, append_assoc, dropWhile_append_of_pos]
    · rfl
    · exact fun c hc => decide_eq_true fun heq : c = ':'.toUInt8 => hscheme (heq ▸ hc)
  rw [afterAuthority, hdrop, show (3 : ℕ) = (ascii "://").length from rfl, drop_left,
    dropWhile_append_of_pos fun c hc => decide_eq_true (hauthority c hc)]
  cases rest with
  | nil => rfl
  | cons c rest => exact dropWhile_cons_of_neg (by simp [hrest c rfl])

variable {url p s z : Bytes}

/-- The path of a URL ends at the first delimiter. -/
theorem path_eq {t : Bytes} (h : afterAuthority url = p ++ t) (hp : ∀ c ∈ p, c ∉ ascii "?#")
    (ht : ∀ c ∈ t.head?, c ∈ ascii "?#") : path url = p := by
  rw [path, h, takeWhile_append_of_pos fun c hc => decide_eq_true (hp c hc)]
  cases t with
  | nil => exact append_nil p
  | cons c t => rw [takeWhile_cons_of_neg (by simp [ht c rfl]), append_nil]

/-- The query of a URL is between the first question mark and the number sign behind it. -/
theorem query_eq {q : Bytes} (h : afterAuthority url = p ++ '?'.toUInt8 :: q)
    (hp : ∀ c ∈ p, c ∉ ascii "?#") :
    query url = q.takeWhile (· ≠ '#'.toUInt8) := by
  have hhash : ∀ c ∈ p, decide (c ≠ '#'.toUInt8) = true := fun c hc =>
    decide_eq_true fun heq => hp c hc (heq ▸ isDelimiter.2)
  have hmark : ∀ c ∈ p, decide (c ≠ '?'.toUInt8) = true := fun c hc =>
    decide_eq_true fun heq => hp c hc (heq ▸ isDelimiter.1)
  rw [query, h, takeWhile_append_of_pos hhash, dropWhile_append_of_pos hmark,
    takeWhile_cons_of_pos (by decide), dropWhile_cons_of_neg (by decide), tail_cons]

/-- There is no query where the path ends with the text, or at a number sign. -/
theorem query_eq_nil {t : Bytes} (h : afterAuthority url = p ++ t) (hp : ∀ c ∈ p, c ∉ ascii "?#")
    (ht : ∀ c ∈ t.head?, c = '#'.toUInt8) : query url = [] := by
  have hhash : ∀ c ∈ p, decide (c ≠ '#'.toUInt8) = true := fun c hc =>
    decide_eq_true fun heq => hp c hc (heq ▸ isDelimiter.2)
  have hmark : ∀ c ∈ p, decide (c ≠ '?'.toUInt8) = true := fun c hc =>
    decide_eq_true fun heq => hp c hc (heq ▸ isDelimiter.1)
  have hnil : t.takeWhile (· ≠ '#'.toUInt8) = [] := by
    cases t with
    | nil => rfl
    | cons c t => exact takeWhile_cons_of_neg (by simp [ht c rfl])
  rw [query, h, takeWhile_append_of_pos hhash, dropWhile_append_of_pos hmark, hnil]
  rfl

/-! ### Staying below -/

theorem foldl_resolveStep_append {depth : ℕ} {out out' segments : List Bytes}
    (hdepth : out'.length = depth) (h : climbs depth segments = false) :
    segments.foldl resolveStep (out ++ out') = out ++ segments.foldl resolveStep out' := by
  induction segments generalizing depth out' with
  | nil => rfl
  | cons segment segments ih =>
    rw [climbs] at h
    rw [foldl_cons, foldl_cons, resolveStep, resolveStep]
    split_ifs at h ⊢ with hdotdot hdot
    · rw [Bool.or_eq_false_iff, decide_eq_false_iff_not] at h
      have hne : out' ≠ [] := fun hnil => h.1 (by rw [← hdepth, hnil, length_nil])
      rw [dropLast_append_of_ne_nil hne]
      exact ih (by rw [length_dropLast, hdepth]) h.2
    · exact ih hdepth h
    · rw [append_assoc]
      exact ih (by rw [length_append, hdepth, length_singleton]) h

/-- The segments of a path put behind another one, when they do not climb. -/
theorem resolve_append {segments segments' : List Bytes} (hne : segments' ≠ [])
    (h : climbs 0 segments' = false) :
    resolve (segments ++ segments') = segments.foldl resolveStep [] ++ resolve segments' := by
  have hlast := getLast?_eq_some_getLast hne
  have hfold := @foldl_resolveStep_append 0 (segments.foldl resolveStep []) [] segments' rfl h
  rw [append_nil] at hfold
  rw [resolve, resolve, foldl_append, hfold, getLast?_append, hlast, Option.some_or,
    append_assoc]

/-- A resolved path is never empty. -/
theorem resolve_ne_nil {segments : List Bytes} (hne : segments ≠ []) : resolve segments ≠ [] := by
  obtain ⟨init, last, rfl⟩ := (eq_nil_or_concat segments).resolve_left hne
  rw [resolve, concat_eq_append, getLast?_concat, foldl_append, foldl_cons,
    foldl_nil, resolveStep, Option.any_some]
  split_ifs with hdotdot hdot hlast hdot hlast <;> simp_all

/-- The resolved segments are those so far, or these and an empty one. -/
theorem resolve_eq (segments : List Bytes) : resolve segments = segments.foldl resolveStep [] ∨
    resolve segments = segments.foldl resolveStep [] ++ [[]] := by
  rw [resolve]
  split_ifs
  · exact .inr rfl
  · exact .inl (append_nil _)

theorem segments_ne_nil (hs : s.head? = some '/'.toUInt8) : segments s ≠ [] := by
  obtain ⟨s, rfl⟩ := head?_eq_some_iff.mp hs
  rw [segments_cons]
  exact splitOn_ne_nil _ _

/-- A path put behind another one stays below it, unless its dot segments climb. -/
theorem resolvePath_prefix_append (hs : s.head? = some '/'.toUInt8)
    (h : climbs 0 (segments s) = false) :
    resolvePath p <+: resolvePath (p ++ s) ∧
      resolvePath (p ++ ['/'.toUInt8]) <+: resolvePath (p ++ s) := by
  have hne := segments_ne_nil hs
  obtain ⟨s, rfl⟩ := head?_eq_some_iff.mp hs
  have hbelow : resolvePath (p ++ '/'.toUInt8 :: s) =
      pathOf ((segments p).foldl resolveStep []) ++
        pathOf (resolve (segments ('/'.toUInt8 :: s))) := by
    rw [resolvePath, segments_append, resolve_append hne h, pathOf_append]
  have hslash : pathOf ((segments p).foldl resolveStep []) ++ ['/'.toUInt8] <+:
      resolvePath (p ++ '/'.toUInt8 :: s) := by
    obtain ⟨rest, hrest⟩ := head?_eq_some_iff.mp (head?_pathOf _ (resolve_ne_nil hne))
    rw [hbelow, hrest]
    exact ⟨rest, by rw [append_assoc, singleton_append]⟩
  refine ⟨?_, ?_⟩
  · rw [resolvePath]
    obtain heq | heq := resolve_eq (segments p)
    · rw [heq, hbelow]
      exact prefix_append _ _
    · rw [heq, pathOf_append]
      exact hslash
  · have hlast : resolvePath (p ++ ['/'.toUInt8]) =
        pathOf ((segments p).foldl resolveStep []) ++ ['/'.toUInt8] := by
      rw [resolvePath, segments_append, resolve_append (by decide) (by decide), pathOf_append]
      rfl
    rw [hlast]
    exact hslash

/-! ### Climbing -/

theorem mem_foldl_resolveStep {out segments : List Bytes} {x : Bytes}
    (h : x ∈ segments.foldl resolveStep out) : x ∈ out ∨ x ∈ segments := by
  induction segments generalizing out with
  | nil => exact .inl h
  | cons segment segments ih =>
    obtain hout | hmem := ih h
    · rw [resolveStep] at hout
      split_ifs at hout
      · exact .inl (mem_of_mem_dropLast hout)
      · exact .inl hout
      · rw [mem_append, mem_singleton] at hout
        obtain hout | rfl := hout
        · exact .inl hout
        · exact .inr (mem_cons_self ..)
    · exact .inr (mem_cons_of_mem _ hmem)

/-- Dot segments that climb remove the segment in front of them. -/
theorem not_mem_of_climbs {depth : ℕ} {z : Bytes} {out segments : List Bytes}
    (hdepth : out.length = depth) (hout : z ∉ out) (hz : z ∉ segments)
    (h : climbs depth segments = true) : z ∉ segments.foldl resolveStep (z :: out) := by
  induction segments generalizing depth out with
  | nil => cases h
  | cons segment segments ih =>
    rw [climbs] at h
    rw [foldl_cons, resolveStep]
    have hz' : z ∉ segments := fun hmem => hz (mem_cons_of_mem _ hmem)
    split_ifs at h ⊢ with hdotdot hdot
    · by_cases hnil : out = []
      · rw [hnil]
        exact fun hmem => (mem_foldl_resolveStep hmem).elim (fun hin => nomatch hin) hz'
      · have hpos : depth ≠ 0 := fun hzero =>
          hnil (eq_nil_of_length_eq_zero (hdepth.trans hzero))
        rw [decide_eq_false hpos, Bool.false_or] at h
        rw [dropLast_cons_of_ne_nil hnil]
        exact ih (by rw [length_dropLast, hdepth])
          (fun hmem => hout (mem_of_mem_dropLast hmem)) hz' h
    · exact ih hdepth hout hz' h
    · rw [cons_append]
      refine ih (by rw [length_append, hdepth, length_singleton]) ?_ hz' h
      rw [mem_append, mem_singleton]
      rintro (hmem | rfl)
      · exact hout hmem
      · exact hz (mem_cons_self ..)

/-- A path with segments shorter than `z` does not start with it. -/
theorem not_isPrefix_pathOf {l : List Bytes} (hz : '/'.toUInt8 ∉ z)
    (hlen : ∀ x ∈ l, x.length < z.length) :
    ¬ '/'.toUInt8 :: z <+: pathOf l := by
  cases l with
  | nil => exact fun h => nomatch prefix_nil.mp h
  | cons x l =>
    intro h
    rw [pathOf, flatMap_cons, cons_append, cons_prefix_cons] at h
    obtain ⟨rest, hrest⟩ := h.2
    obtain ⟨z', rfl⟩ : x <+: z :=
      prefix_of_prefix_length_le (prefix_append x _) ⟨rest, hrest⟩
        (hlen x (mem_cons_self ..)).le
    have hlt := hlen x (mem_cons_self ..)
    rw [length_append] at hlt
    obtain ⟨c, z', rfl⟩ := exists_cons_of_length_pos (l := z') (by omega)
    rw [append_assoc, append_cancel_left_eq] at hrest
    cases l with
    | nil => cases hrest
    | cons y l =>
      obtain ⟨rfl, -⟩ := List.cons.inj hrest
      exact hz (mem_append_right _ (mem_cons_self ..))

theorem resolvePath_cons (hz : '/'.toUInt8 ∉ z) (hdot : isDotDot z = false ∧ isDot z = false) :
    resolvePath ('/'.toUInt8 :: z) = '/'.toUInt8 :: z := by
  rw [resolvePath, segments_cons, splitOn_eq_singleton hz, resolve, foldl_cons,
    foldl_nil, resolveStep, hdot.1, hdot.2, getLast?_singleton, Option.any_some, hdot.1,
    hdot.2]
  simp [pathOf]

/-- A path whose dot segments climb leaves a long segment in front of it. -/
theorem not_isPrefix_resolvePath_append (hz : '/'.toUInt8 ∉ z)
    (hdot : isDotDot z = false ∧ isDot z = false)
    (hlen : ∀ x ∈ segments s, x.length < z.length) (hs : s.head? = some '/'.toUInt8)
    (h : climbs 0 (segments s) = true) :
    ¬ '/'.toUInt8 :: z <+: resolvePath ('/'.toUInt8 :: z ++ s) := by
  obtain ⟨s, rfl⟩ := head?_eq_some_iff.mp hs
  have hpos : 0 < z.length := by
    obtain ⟨x, l, hx⟩ := exists_cons_of_ne_nil (segments_ne_nil hs)
    exact Nat.zero_lt_of_lt (hlen x (hx ▸ mem_cons_self ..))
  have hnot : z ∉ segments ('/'.toUInt8 :: s) := fun hmem => lt_irrefl _ (hlen z hmem)
  have hfold : (segments ('/'.toUInt8 :: z ++ '/'.toUInt8 :: s)).foldl resolveStep [] =
      (segments ('/'.toUInt8 :: s)).foldl resolveStep [z] := by
    rw [segments_append, foldl_append, segments_cons, splitOn_eq_singleton hz,
      foldl_cons, foldl_nil, resolveStep, hdot.1, hdot.2]
    rfl
  have hgone := @not_mem_of_climbs 0 z [] _ rfl not_mem_nil hnot h
  rw [← hfold] at hgone
  refine not_isPrefix_pathOf hz fun x hx => ?_
  have hshort : ∀ x ∈ (segments ('/'.toUInt8 :: z ++ '/'.toUInt8 :: s)).foldl resolveStep [],
      x.length < z.length := by
    intro x hx
    rw [hfold] at hx
    obtain hx' | hx' := mem_foldl_resolveStep hx
    · rw [mem_singleton] at hx'
      rw [hx', ← hfold] at hx
      exact absurd hx hgone
    · exact hlen x hx'
  obtain heq | heq := resolve_eq (segments ('/'.toUInt8 :: z ++ '/'.toUInt8 :: s))
  · rw [heq] at hx
    exact hshort x hx
  · rw [heq, mem_append, mem_singleton] at hx
    obtain hx | rfl := hx
    · exact hshort x hx
    · exact hpos

end Esmetrics.UrlSyntax
