import Esmetrics.Auth.Path
import Esmetrics.Http.Request

/-!
# What a normalised path is

`path_clean` goes through the elements of a path one after another, so that its loop is a fold over
them (`pathCleanLoop_eq`). The elements that a path leads to from the root are its `location`.
Cleaning a rooted path gives this location; cleaning a relative one gives it too, behind as many
`..` as the path met at the root (`normalizePath_eq`).

A `..` that is met at the root is put into the normalised path behind a slash, where it has a
meaning that it did not have before. A path is normalised as it should be if and only if it is
rooted, or never climbs out of the root (`normalized_normalizePath_iff`).
-/

namespace Esmetrics.Auth

open List

open UrlSyntax

/-! ### Locations -/

/-- One element further; at the root `..` leads nowhere. -/
def locationStep (loc : List Bytes) (x : Bytes) : List Bytes :=
  if x = [] ∨ x = ascii "." then loc
  else if x = ascii ".." then loc.dropLast
  else loc ++ [x]

/-- Where a path leads to from the root. -/
def location (path : Bytes) : List Bytes := (path.splitOn '/'.toUInt8).foldl locationStep []

/-- How often a `..` is met at the root. -/
def climbsFrom : List Bytes → List Bytes → ℕ
  | _, [] => 0
  | loc, x :: xs => (if x = ascii ".." ∧ loc = [] then 1 else 0) +
    climbsFrom (locationStep loc x) xs

/-- How often a relative path climbs out of the root. -/
def rootClimbs (path : Bytes) : ℕ :=
  if path.head? = some '/'.toUInt8 then 0 else climbsFrom [] (path.splitOn '/'.toUInt8)

/-- The element after the last slash may be empty, no other may. -/
structure Normalized (path out : Bytes) : Prop where
  rooted : out = [] ∨ out.head? = some '/'.toUInt8
  plain : ∀ x ∈ (segments out).dropLast, IsElement x
  last : ∀ x ∈ (segments out).getLast?, x = [] ∨ IsElement x
  slash : out.getLast? = some '/'.toUInt8 → path.getLast? = some '/'.toUInt8
  location : location out = location path
  stable : normalizePath out = out

example : location (ascii "a/../../b//./c/") = [ascii "b", ascii "c"] ∧
    rootClimbs (ascii "a/../../b/../..") = 2 := by decide +kernel

/-! ### The loop as a fold -/

/-- One element in the loop of `path_clean`. -/
def cleanStep (rooted : Bool) (s : Bytes × ℕ) (x : Bytes) : Bytes × ℕ :=
  if x = [] ∨ x = ascii "." then s
  else if x = ascii ".." then
    if s.2 < s.1.length then (s.1.take (lastSlash s.1 s.2 (s.1.length - 1)), s.2)
    else if rooted then s
    else
      let out := (if s.1 = [] then [] else s.1 ++ ['/'.toUInt8]) ++ ascii ".."
      (out, out.length)
  else
    ((if (if rooted then s.1.length ≠ 1 else s.1 ≠ []) then s.1 ++ ['/'.toUInt8] else s.1) ++ x,
      s.2)

theorem cleanStep_nil (rooted : Bool) (s : Bytes × ℕ) : cleanStep rooted s [] = s :=
  if_pos (.inl rfl)

theorem not_plain_dotdot : ¬ (ascii ".." = [] ∨ ascii ".." = ascii ".") := by decide

theorem cleanStep_dotdot (rooted : Bool) (s : Bytes × ℕ) :
    cleanStep rooted s (ascii "..") =
      if s.2 < s.1.length then (s.1.take (lastSlash s.1 s.2 (s.1.length - 1)), s.2)
      else if rooted then s
      else
        let out := (if s.1 = [] then [] else s.1 ++ ['/'.toUInt8]) ++ ascii ".."
        (out, out.length) := by
  rw [cleanStep, if_neg not_plain_dotdot, if_pos rfl]

variable {x path : Bytes} {loc parts : List Bytes}

theorem cleanStep_element (rooted : Bool) (s : Bytes × ℕ) (hx : IsElement x) :
    cleanStep rooted s x =
      ((if (if rooted then s.1.length ≠ 1 else s.1 ≠ []) then s.1 ++ ['/'.toUInt8] else s.1) ++ x,
        s.2) := by
  rw [cleanStep, if_neg (not_or.mpr ⟨hx.1, hx.2.2.1⟩), if_neg hx.2.2.2]

/-- An element is followed by a slash, or is the last. -/
theorem foldl_splitOn_append {α : Type} {f : α → Bytes → α} (hnil : ∀ a, f a [] = a)
    (a : α) {r : Bytes}
    (hx : '/'.toUInt8 ∉ x) (hr : r = [] ∨ r.head? = some '/'.toUInt8) :
    ((x ++ r).splitOn '/'.toUInt8).foldl f a = (r.splitOn '/'.toUInt8).foldl f (f a x) := by
  obtain rfl | hr := hr
  · rw [append_nil, splitOn_eq_singleton hx, splitOn_nil, foldl_cons, foldl_cons, hnil]
  · obtain ⟨r, rfl⟩ := head?_eq_some_iff.mp hr
    have hcons : ('/'.toUInt8 :: r).splitOn '/'.toUInt8 = [] :: r.splitOn '/'.toUInt8 := by
      rw [← nil_append ('/'.toUInt8 :: r), splitOn_append_cons_self_of_not_mem not_mem_nil]
    rw [splitOn_append_cons_self_of_not_mem hx, hcons, foldl_cons, foldl_cons, hnil]

/-- **The loop goes through the elements.** -/
theorem pathCleanLoop_eq (rooted : Bool) {fuel : ℕ} {rest : Bytes} (hfuel : rest.length ≤ fuel)
    (out : Bytes) (dotdot : ℕ) :
    pathCleanLoop rooted fuel rest out dotdot =
      ((rest.splitOn '/'.toUInt8).foldl (cleanStep rooted) (out, dotdot)).1 := by
  induction fuel generalizing rest out dotdot with
  | zero =>
    rw [eq_nil_of_length_eq_zero (Nat.le_zero.mp hfuel), splitOn_nil, foldl_cons, foldl_nil,
      cleanStep_nil]
    rfl
  | succ fuel ih =>
    cases rest with
    | nil =>
      rw [splitOn_nil, foldl_cons, foldl_nil, cleanStep_nil]
      rfl
    | cons c rest =>
      rw [length_cons] at hfuel
      have htail : rest.tail.length ≤ fuel := by
        rw [length_tail]
        omega
      have hstep : ∀ x r : Bytes, '/'.toUInt8 ∉ x → (r = [] ∨ r.head? = some '/'.toUInt8) →
          ((x ++ r).splitOn '/'.toUInt8).foldl (cleanStep rooted) (out, dotdot) =
            (r.splitOn '/'.toUInt8).foldl (cleanStep rooted) (cleanStep rooted (out, dotdot) x) :=
        fun _ _ => foldl_splitOn_append (cleanStep_nil rooted) (out, dotdot)
      rw [pathCleanLoop]
      by_cases hslash : c = '/'.toUInt8
      · rw [if_pos hslash, ih (by omega), hslash, ← nil_append ('/'.toUInt8 :: rest),
          splitOn_append_cons_self_of_not_mem not_mem_nil, foldl_cons, cleanStep_nil]
      rw [if_neg hslash]
      by_cases hdot : c = '.'.toUInt8 ∧ (rest = [] ∨ rest.head? = some '/'.toUInt8)
      · have hsplit := hstep ['.'.toUInt8] rest (by decide) hdot.2
        rw [if_pos hdot, ih (by omega), hdot.1, ← singleton_append, hsplit]
        rfl
      rw [if_neg hdot]
      by_cases hdotdot : c = '.'.toUInt8 ∧ rest.head? = some '.'.toUInt8 ∧
          (rest.tail = [] ∨ rest.tail.head? = some '/'.toUInt8)
      · have hsplit := hstep (ascii "..") rest.tail (by decide) hdotdot.2.2
        have hrest : c :: rest = ascii ".." ++ rest.tail := by
          obtain ⟨tail, rfl⟩ := head?_eq_some_iff.mp hdotdot.2.1
          rw [hdotdot.1]
          rfl
        rw [if_pos hdotdot, hrest, hsplit, cleanStep_dotdot]
        dsimp only
        split_ifs
        · exact ih htail _ _
        · exact ih htail _ _
        · exact ih htail _ _
        · exact ih htail _ _
      · have hsplit := hstep ((c :: rest).takeWhile (· ≠ '/'.toUInt8))
          ((c :: rest).dropWhile (· ≠ '/'.toUInt8)) ?_ ?_
        · have helement := isElement_takeWhile hslash hdot hdotdot
          have hdrop : ((c :: rest).dropWhile (· ≠ '/'.toUInt8)).length ≤ fuel := by
            have hlen := (dropWhile_suffix (l := rest) (· ≠ '/'.toUInt8)).length_le
            simp only [ne_eq, hslash, not_false_eq_true, decide_true, dropWhile_cons_of_pos]
            exact hlen.trans (by omega)
          rw [takeWhile_append_dropWhile] at hsplit
          rw [if_neg hdotdot, hsplit, ih hdrop, cleanStep_element rooted (out, dotdot) helement]
        · exact fun hmem => of_decide_eq_true (mem_takeWhile_imp (p := (· ≠ '/'.toUInt8)) hmem) rfl
        · cases hdrop : (c :: rest).dropWhile (· ≠ '/'.toUInt8) with
          | nil => exact .inl rfl
          | cons d r =>
            have hd := head?_dropWhile_not (· ≠ '/'.toUInt8) (c :: rest)
            rw [hdrop] at hd
            exact .inr (congrArg some (by simpa using hd))

theorem not_slash_of_mem_splitOn (hx : x ∈ path.splitOn '/'.toUInt8) : '/'.toUInt8 ∉ x := by
  induction path using line_induction '/'.toUInt8 with
  | last l hl =>
    rw [splitOn_eq_singleton hl, mem_singleton] at hx
    exact hx ▸ hl
  | line l s hl ih =>
    rw [splitOn_append_cons_self_of_not_mem hl, mem_cons] at hx
    obtain rfl | hx := hx
    · exact hl
    · exact ih hx

/-! ### Elements -/

theorem locationStep_eq_of_plain (h : x = [] ∨ x = ascii ".") :
    locationStep loc x = loc := if_pos h

theorem locationStep_dotdot (loc : List Bytes) : locationStep loc (ascii "..") = loc.dropLast := by
  rw [locationStep, if_neg not_plain_dotdot, if_pos rfl]

theorem locationStep_element (loc : List Bytes) (hx : IsElement x) :
    locationStep loc x = loc ++ [x] := by
  rw [locationStep, if_neg (not_or.mpr ⟨hx.1, hx.2.2.1⟩), if_neg hx.2.2.2]

/-- An element that is neither empty nor a dot segment is kept, `..` goes back, the others do
nothing. -/
theorem element_cases (hx : '/'.toUInt8 ∉ x) :
    (x = [] ∨ x = ascii ".") ∨ x = ascii ".." ∨ IsElement x := by
  by_cases hplain : x = [] ∨ x = ascii "."
  · exact .inl hplain
  by_cases hdotdot : x = ascii ".."
  · exact .inr (.inl hdotdot)
  · obtain ⟨hne, hdot⟩ := not_or.mp hplain
    exact .inr (.inr ⟨hne, hx, hdot, hdotdot⟩)

theorem isElement_locationStep (h : ∀ y ∈ loc, IsElement y) (hx : '/'.toUInt8 ∉ x) :
    ∀ y ∈ locationStep loc x, IsElement y := by
  obtain hplain | rfl | helement := element_cases hx
  · rwa [locationStep_eq_of_plain hplain]
  · rw [locationStep_dotdot]
    exact fun y hy => h y (mem_of_mem_dropLast hy)
  · rw [locationStep_element loc helement]
    intro y hy
    obtain hy | hy := mem_append.mp hy
    · exact h y hy
    · exact mem_singleton.mp hy ▸ helement

theorem isElement_foldl {xs : List Bytes} (hxs : ∀ x ∈ xs, '/'.toUInt8 ∉ x)
    (h : ∀ y ∈ loc, IsElement y) :
    ∀ y ∈ xs.foldl locationStep loc, IsElement y := by
  induction xs generalizing loc with
  | nil => exact h
  | cons x xs ih =>
    obtain ⟨hx, hxs⟩ := forall_mem_cons.mp hxs
    exact ih hxs (isElement_locationStep h hx)

theorem isElement_of_mem_location (hx : x ∈ location path) : IsElement x :=
  isElement_foldl (fun _ => not_slash_of_mem_splitOn) (fun _ hy => absurd hy not_mem_nil) x hx

/-! ### Rooted paths -/

theorem cleanStep_rooted (h : ∀ y ∈ loc, IsElement y) (hx : '/'.toUInt8 ∉ x) :
    cleanStep true (rootedPath loc, 1) x = (rootedPath (locationStep loc x), 1) := by
  obtain hplain | rfl | helement := element_cases hx
  · rw [locationStep_eq_of_plain hplain, cleanStep, if_pos hplain]
  · rw [locationStep_dotdot, cleanStep_dotdot]
    by_cases hnil : loc = []
    · rw [hnil]
      rfl
    · have hone := (length_rootedPath h).not.mpr hnil
      have hpos : (rootedPath loc).length ≠ 0 := fun hzero => by
        obtain ⟨y, loc, rfl⟩ := exists_cons_of_ne_nil hnil
        rw [rootedPath, if_neg hnil, pathOf, flatMap_cons, cons_append] at hzero
        exact Nat.succ_ne_zero _ hzero
      rw [if_pos (by dsimp only; omega), take_rootedPath hnil h]
  · rw [locationStep_element loc helement, cleanStep_element true _ helement, rootedPath_append]
    by_cases hnil : loc = []
    · rw [if_pos hnil, hnil]
      rfl
    · simp only [if_neg hnil, if_true, if_pos ((length_rootedPath h).not.mpr hnil)]

theorem foldl_cleanStep_rooted {xs : List Bytes} (hxs : ∀ x ∈ xs, '/'.toUInt8 ∉ x)
    {loc : List Bytes}
    (h : ∀ y ∈ loc, IsElement y) :
    xs.foldl (cleanStep true) (rootedPath loc, 1) =
    (rootedPath (xs.foldl locationStep loc), 1) := by
  induction xs generalizing loc with
  | nil => rfl
  | cons x xs ih =>
    obtain ⟨hx, hxs⟩ := forall_mem_cons.mp hxs
    rw [foldl_cons, foldl_cons, cleanStep_rooted h hx, ih hxs (isElement_locationStep h hx)]

/-! ### Relative paths -/

/-- The relative path of a list of parts. -/
def relativePath (parts : List Bytes) : Bytes := (pathOf parts).tail

/-- A part of a path: an element, or `..`. -/
def IsPart (x : Bytes) : Prop := x ≠ [] ∧ '/'.toUInt8 ∉ x ∧ x ≠ ascii "."

theorem IsElement.isPart (h : IsElement x) : IsPart x := ⟨h.1, h.2.1, h.2.2.1⟩

theorem isPart_dotdot : IsPart (ascii "..") := by
  refine ⟨?_, ?_, ?_⟩
  all_goals decide

theorem pathOf_of_ne_nil (h : parts ≠ []) :
    pathOf parts = '/'.toUInt8 :: relativePath parts := by
  obtain ⟨x, parts, rfl⟩ := exists_cons_of_ne_nil h
  rfl

theorem pathOf_concat (parts : List Bytes) (x : Bytes) :
    pathOf (parts ++ [x]) = pathOf parts ++ '/'.toUInt8 :: x := by
  rw [pathOf_append]
  simp [pathOf]

theorem relativePath_concat (h : parts ≠ []) (x : Bytes) :
    relativePath (parts ++ [x]) = relativePath parts ++ '/'.toUInt8 :: x := by
  rw [relativePath, pathOf_concat, pathOf_of_ne_nil h, cons_append, tail_cons]

theorem relativePath_singleton (x : Bytes) : relativePath [x] = x := by
  simp [relativePath, pathOf]

theorem relativePath_eq_nil_iff {parts : List Bytes} (h : ∀ x ∈ parts, IsPart x) :
    relativePath parts = [] ↔ parts = [] := by
  constructor
  · intro hnil
    by_contra hne
    obtain ⟨x, parts, rfl⟩ := exists_cons_of_ne_nil hne
    rw [relativePath, pathOf, flatMap_cons, cons_append, tail_cons, append_eq_nil_iff] at hnil
    exact (h x mem_cons_self).1 hnil.1
  · rintro rfl
    rfl

/-- Another part behind the others. -/
theorem relativePath_push (h : ∀ x ∈ parts, IsPart x) (x : Bytes) :
    relativePath (parts ++ [x]) =
      (if relativePath parts = [] then [] else relativePath parts ++ ['/'.toUInt8]) ++ x := by
  by_cases hnil : parts = []
  · rw [if_pos ((relativePath_eq_nil_iff h).mpr hnil), hnil]
    exact relativePath_singleton x
  · rw [if_neg ((relativePath_eq_nil_iff h).not.mpr hnil), relativePath_concat hnil, append_assoc]
    rfl

/-- The slash in front of the last part, where what may not be removed ends before it. -/
theorem lastSlash_of_le {a : Bytes} (hx : '/'.toUInt8 ∉ x) {dotdot : ℕ}
    (hle : dotdot ≤ a.length) {k : ℕ}
    (hk : k ≤ x.length) : lastSlash (a ++ '/'.toUInt8 :: x) dotdot (a.length + k) = a.length := by
  induction k with
  | zero =>
    rw [Nat.add_zero]
    cases hn : a.length with
    | zero => rfl
    | succ n =>
      have hget : (a ++ '/'.toUInt8 :: x)[n + 1]? = some '/'.toUInt8 := by
        rw [← hn, getElem?_append_right le_rfl, Nat.sub_self]
        rfl
      rw [lastSlash, if_neg fun hcond => hcond.2 hget]
  | succ k ih =>
    have hget : (a ++ '/'.toUInt8 :: x)[a.length + k + 1]? ≠ some '/'.toUInt8 := by
      rw [getElem?_append_right (by omega), show a.length + k + 1 - a.length = k + 1 by omega,
        getElem?_cons_succ]
      exact fun heq => hx (mem_of_getElem? heq)
    rw [← Nat.add_assoc, lastSlash, if_pos ⟨by omega, hget⟩]
    exact ih (by omega)

theorem lastSlash_of_not_mem (hx : '/'.toUInt8 ∉ x) (k : ℕ) : lastSlash x 0 k = 0 := by
  induction k with
  | zero => rfl
  | succ k ih =>
    rw [lastSlash, if_pos ⟨Nat.succ_pos k, fun heq => hx (mem_of_getElem? heq)⟩]
    exact ih

/-- The parts of a path that has climbed out of the root. -/
def climbing (climbs : ℕ) (loc : List Bytes) : List Bytes :=
  List.replicate climbs (ascii "..") ++ loc

theorem isPart_climbing (h : ∀ y ∈ loc, IsElement y) (climbs : ℕ) :
    ∀ x ∈ climbing climbs loc, IsPart x := by
  intro x hx
  obtain hx | hx := mem_append.mp hx
  · exact eq_of_mem_replicate hx ▸ isPart_dotdot
  · exact (h x hx).isPart

theorem climbing_concat (climbs : ℕ) (loc : List Bytes) (x : Bytes) :
    climbing climbs (loc ++ [x]) = climbing climbs loc ++ [x] := (append_assoc _ _ _).symm

theorem climbing_succ (climbs : ℕ) : climbing (climbs + 1)
    [] = climbing climbs [] ++ [ascii ".."] := by
  rw [climbing, climbing, append_nil, append_nil, replicate_succ']

/-- The state of the loop over a relative path. -/
def relativeState (climbs : ℕ) (loc : List Bytes) : Bytes × ℕ :=
  (relativePath (climbing climbs loc), (relativePath (climbing climbs [])).length)

/-- The `..` at the start are not longer than the path. -/
theorem length_relativePath_climbing (climbs : ℕ) (loc : List Bytes) :
    (relativePath (climbing climbs [])).length ≤ (relativePath (climbing climbs loc)).length := by
  rw [relativePath, relativePath, length_tail, length_tail, climbing, climbing, append_nil,
    pathOf_append, length_append]
  omega

/-- Going back removes the last element. -/
theorem take_relativePath (climbs : ℕ) (h : ∀ y ∈ loc, IsElement y) (hne : loc ≠ []) :
    (relativePath (climbing climbs [])).length < (relativePath (climbing climbs loc)).length ∧
      (relativePath (climbing climbs loc)).take (lastSlash (relativePath (climbing climbs loc))
        (relativePath (climbing climbs [])).length
        ((relativePath (climbing climbs loc)).length - 1)) =
        relativePath (climbing climbs loc.dropLast) := by
  obtain ⟨init, x, rfl⟩ := (eq_nil_or_concat loc).resolve_left hne
  rw [concat_eq_append] at h ⊢
  have hx := h x (mem_append_right _ (mem_singleton_self x))
  have hpos := length_pos_of_ne_nil hx.1
  have hle := length_relativePath_climbing climbs init
  rw [dropLast_concat, climbing_concat]
  by_cases hnil : climbing climbs init = []
  · obtain ⟨hclimbs, rfl⟩ := append_eq_nil_iff.mp hnil
    rw [hnil] at hle ⊢
    rw [nil_append, relativePath_singleton]
    refine ⟨hpos, ?_⟩
    change x.take (lastSlash x 0 (x.length - 1)) = []
    rw [lastSlash_of_not_mem hx.2.1, take_zero]
  · have hlast : (relativePath (climbing climbs init) ++ '/'.toUInt8 :: x).length - 1 =
        (relativePath (climbing climbs init)).length + x.length := by
      rw [length_append, length_cons]
      omega
    rw [relativePath_concat hnil, hlast, lastSlash_of_le hx.2.1 hle le_rfl, take_left,
      length_append, length_cons]
    exact ⟨by omega, rfl⟩

theorem cleanStep_relative {climbs : ℕ} (h : ∀ y ∈ loc, IsElement y) (hx : '/'.toUInt8 ∉ x) :
    cleanStep false (relativeState climbs loc) x =
      relativeState (climbs + if x = ascii ".." ∧ loc = [] then 1 else 0) (locationStep loc x) := by
  obtain hplain | rfl | helement := element_cases hx
  · have hdotdot : ¬ (x = ascii ".." ∧ loc = []) := fun hand => not_plain_dotdot (hand.1 ▸ hplain)
    rw [locationStep_eq_of_plain hplain, cleanStep, if_pos hplain, if_neg hdotdot, Nat.add_zero]
  · rw [locationStep_dotdot, cleanStep_dotdot]
    by_cases hnil : loc = []
    · subst hnil
      have hone : (if ascii ".." = ascii ".." ∧ ([] : List Bytes) = [] then 1 else 0) = 1 :=
        if_pos ⟨rfl, rfl⟩
      have hlt : ¬ (relativeState climbs []).2 < (relativeState climbs []).1.length := lt_irrefl _
      have hout : (if (relativeState climbs []).1 = [] then []
          else (relativeState climbs []).1 ++ ['/'.toUInt8]) ++
          ascii ".." = relativePath (climbing (climbs + 1) []) := by
        rw [climbing_succ, relativePath_push (isPart_climbing h climbs)]
        rfl
      rw [if_neg hlt, if_neg Bool.false_ne_true, hone]
      dsimp only
      rw [hout]
      rfl
    · obtain ⟨hlt, htake⟩ := take_relativePath climbs h hnil
      have hlt' : (relativeState climbs loc).2 < (relativeState climbs loc).1.length := hlt
      have hzero : (if ascii ".." = ascii ".." ∧ loc = [] then 1 else 0) = 0 :=
        if_neg fun hand => hnil hand.2
      rw [if_pos hlt', hzero, Nat.add_zero]
      exact Prod.ext htake rfl
  · have hdotdot : ¬ (x = ascii ".." ∧ loc = []) := fun hand => helement.2.2.2 hand.1
    have hout : relativePath (climbing climbs (loc ++ [x])) =
        (if relativePath (climbing climbs loc) = [] then []
          else relativePath (climbing climbs loc) ++ ['/'.toUInt8]) ++ x := by
      rw [climbing_concat, relativePath_push (isPart_climbing h climbs)]
    have hif : (if (if false then (relativeState climbs loc).1.length ≠ 1
        else (relativeState climbs loc).1 ≠ []) then
        (relativeState climbs loc).1 ++ ['/'.toUInt8] else (relativeState climbs loc).1) =
        if relativePath (climbing climbs loc) = [] then []
          else relativePath (climbing climbs loc) ++ ['/'.toUInt8] := by
      change (if (if false then (relativePath (climbing climbs loc)).length ≠ 1
        else relativePath (climbing climbs loc) ≠ []) then relativePath (climbing climbs loc) ++
          ['/'.toUInt8]
        else relativePath (climbing climbs loc)) = _
      by_cases hnil : relativePath (climbing climbs loc) = []
      · rw [hnil]
        rfl
      · rw [if_neg hnil, if_pos (by rwa [if_neg Bool.false_ne_true])]
    rw [locationStep_element loc helement, cleanStep_element false _ helement, if_neg hdotdot,
      Nat.add_zero]
    refine Prod.ext ?_ rfl
    dsimp only
    rw [hif]
    exact hout.symm

theorem foldl_cleanStep_relative {xs : List Bytes} (hxs : ∀ x ∈ xs, '/'.toUInt8 ∉ x)
    {loc : List Bytes}
    (h : ∀ y ∈ loc, IsElement y) (climbs : ℕ) :
    xs.foldl (cleanStep false) (relativeState climbs loc) =
      relativeState (climbs + climbsFrom loc xs) (xs.foldl locationStep loc) := by
  induction xs generalizing loc climbs with
  | nil => rfl
  | cons x xs ih =>
    obtain ⟨hx, hxs⟩ := forall_mem_cons.mp hxs
    rw [foldl_cons, foldl_cons, cleanStep_relative h hx,
      ih hxs (isElement_locationStep h hx), climbsFrom, Nat.add_assoc]

/-! ### Normalised paths -/

/-- The parts of a normalised path. -/
def normalizedParts (path : Bytes) : List Bytes := climbing (rootClimbs path) (location path)

theorem isPart_normalizedParts (hx : x ∈ normalizedParts path) : IsPart x :=
  isPart_climbing (fun _ => isElement_of_mem_location) _ x hx

theorem splitOn_slash_cons (rest : Bytes) :
    ('/'.toUInt8 :: rest).splitOn '/'.toUInt8 = [] :: rest.splitOn '/'.toUInt8 := by
  rw [← nil_append ('/'.toUInt8 :: rest), splitOn_append_cons_self_of_not_mem not_mem_nil]

theorem location_slash_cons (rest : Bytes) :
    location ('/'.toUInt8 :: rest) = (rest.splitOn '/'.toUInt8).foldl locationStep [] := by
  rw [location, splitOn_slash_cons, foldl_cons, locationStep_eq_of_plain (.inl rfl)]

theorem rootClimbs_of_rooted (h : path.head? = some '/'.toUInt8) : rootClimbs path = 0 := if_pos h

theorem rootedPath_ne_nil (parts : List Bytes) : rootedPath parts ≠ [] := by
  rw [rootedPath]
  by_cases hnil : parts = []
  · rw [if_pos hnil]
    exact cons_ne_nil _ _
  · rw [if_neg hnil, pathOf_of_ne_nil hnil]
    exact cons_ne_nil _ _

/-- What a rooted path is cleaned to. -/
theorem pathClean_of_rooted (h : path.head? = some '/'.toUInt8) :
    pathClean path = rootedPath (location path) := by
  obtain ⟨rest, rfl⟩ := head?_eq_some_iff.mp h
  have hloop : pathCleanLoop true ('/'.toUInt8 :: rest).length rest ['/'.toUInt8] 1 =
      rootedPath (location ('/'.toUInt8 :: rest)) := by
    have hfold := @foldl_cleanStep_rooted (rest.splitOn '/'.toUInt8)
      (fun _ => not_slash_of_mem_splitOn) []
      (fun _ hy => absurd hy not_mem_nil)
    have hstart : rootedPath [] = ['/'.toUInt8] := rfl
    rw [hstart] at hfold
    rw [length_cons, pathCleanLoop_eq true (Nat.le_succ rest.length), hfold, location_slash_cons]
  rw [pathClean, if_neg (cons_ne_nil _ _), decide_eq_true h]
  simp only [if_true, tail_cons]
  rw [hloop, if_neg (rootedPath_ne_nil _)]

/-- What a relative path is cleaned to. -/
theorem pathClean_of_relative (h : path.head? ≠ some '/'.toUInt8) :
    pathClean path = if normalizedParts path = [] then ascii "."
      else relativePath (normalizedParts path) := by
  by_cases hempty : path = []
  · rw [hempty]
    rfl
  have hloop : pathCleanLoop false path.length path [] 0 = relativePath (normalizedParts path) := by
    have hfold := @foldl_cleanStep_relative (path.splitOn '/'.toUInt8)
      (fun _ => not_slash_of_mem_splitOn) []
      (fun _ hy => absurd hy not_mem_nil) 0
    have hstart : relativeState 0 [] = ([], 0) := rfl
    have hclimbs : rootClimbs path = climbsFrom [] (path.splitOn '/'.toUInt8) := if_neg h
    rw [hstart] at hfold
    rw [pathCleanLoop_eq false le_rfl, hfold, Nat.zero_add, normalizedParts, hclimbs]
    rfl
  have hiff := @relativePath_eq_nil_iff (normalizedParts path) fun _ => isPart_normalizedParts
  rw [pathClean, if_neg hempty, decide_eq_false h]
  simp only [Bool.false_eq_true, if_false]
  rw [hloop]
  by_cases hnil : normalizedParts path = []
  · rw [if_pos hnil, if_pos (hiff.mpr hnil)]
  · rw [if_neg hnil, if_neg (hiff.not.mpr hnil)]

theorem getLast?_pathOf (h : ∀ x ∈ parts, IsPart x) :
    (pathOf parts).getLast? ≠ some '/'.toUInt8 := by
  obtain rfl | ⟨init, x, rfl⟩ := eq_nil_or_concat parts
  · exact Option.some_ne_none _ ∘ Eq.symm
  · rw [concat_eq_append] at h ⊢
    obtain ⟨hne, hslash, -⟩ := h x (mem_append_right _ (mem_singleton_self x))
    obtain ⟨y, rest, rfl⟩ := exists_cons_of_ne_nil hne
    rw [pathOf_concat, getLast?_append, getLast?_cons_cons, getLast?_eq_some_getLast hne,
      Option.some_or]
    intro heq
    exact hslash (Option.some.inj heq ▸ getLast_mem hne)

theorem head?_relativePath (h : ∀ x ∈ parts, IsPart x) :
    (relativePath parts).head? ≠ some '/'.toUInt8 := by
  cases parts with
  | nil => exact Option.some_ne_none _ ∘ Eq.symm
  | cons x parts =>
    obtain ⟨hne, hslash, -⟩ := h x mem_cons_self
    obtain ⟨y, rest, rfl⟩ := exists_cons_of_ne_nil hne
    intro heq
    have hy : y = '/'.toUInt8 := Option.some.inj heq
    exact hslash (hy ▸ mem_cons_self)

theorem relativePath_ne_dot (h : ∀ x ∈ parts, IsPart x) : relativePath parts ≠ ascii "." := by
  intro heq
  cases parts with
  | nil => cases heq
  | cons x parts =>
    obtain ⟨hne, hslash, hdot⟩ := h x mem_cons_self
    obtain ⟨y, rest, rfl⟩ := exists_cons_of_ne_nil hne
    have hcons : y :: (rest ++ pathOf parts) = ascii "." := heq
    obtain ⟨rfl, hrest⟩ := List.cons.inj hcons
    obtain ⟨rfl, -⟩ := append_eq_nil_iff.mp hrest
    exact hdot rfl

/-- The slash at the end of a path, if it has one. -/
def trailingSlash (path : Bytes) : Bytes :=
  if path.getLast? = some '/'.toUInt8 then ['/'.toUInt8] else []

/-- A cleaned path with parts gets the slashes in front of it and behind it. -/
theorem normalizePath_of_clean (h : ∀ x ∈ parts, IsPart x) (hne : parts ≠ [])
    (hclean : pathClean path = pathOf parts ∨ pathClean path = relativePath parts) :
    normalizePath path = pathOf parts ++ trailingSlash path := by
  have hcons := pathOf_of_ne_nil hne
  have hrelative := (relativePath_eq_nil_iff h).not.mpr hne
  have hlast := getLast?_pathOf h
  have hlast' : (relativePath parts).getLast? ≠ some '/'.toUInt8 := by
    rwa [hcons, getLast?_cons_of_ne_nil hrelative] at hlast
  have hdot : pathClean path ≠ ascii "." := by
    obtain heq | heq := hclean
    · rw [heq, hcons]
      exact ne_of_apply_ne List.head? (show some '/'.toUInt8 ≠ (ascii ".").head? by decide)
    · exact heq ▸ relativePath_ne_dot h
  have hend : (pathClean path).getLast? ≠ some '/'.toUInt8 := by
    obtain heq | heq := hclean
    · rwa [heq]
    · rwa [heq]
  have hbehind : (if (pathClean path).getLast? ≠ some '/'.toUInt8 ∧
      path.getLast? = some '/'.toUInt8 then
      pathClean path ++ ['/'.toUInt8] else pathClean path) =
        pathClean path ++ trailingSlash path := by
    by_cases hslash : path.getLast? = some '/'.toUInt8
    · rw [if_pos ⟨hend, hslash⟩, trailingSlash, if_pos hslash]
    · rw [if_neg fun hand => hslash hand.2, trailingSlash, if_neg hslash, append_nil]
  have hfront : (if (pathClean path ++ trailingSlash path).head? ≠ some '/'.toUInt8 then
      '/'.toUInt8 :: (pathClean path ++ trailingSlash path)
        else pathClean path ++ trailingSlash path) =
      pathOf parts ++ trailingSlash path := by
    obtain heq | heq := hclean
    · rw [heq, hcons, if_neg fun hhead => hhead rfl]
    · have hhead : (relativePath parts ++ trailingSlash path).head? ≠ some '/'.toUInt8 := by
        rw [head?_append_of_ne_nil _ hrelative]
        exact head?_relativePath h
      rw [heq, if_pos hhead, hcons, cons_append]
  have hroot : pathOf parts ++ trailingSlash path ≠ ascii "/" := fun heq => by
    rw [hcons, cons_append] at heq
    exact hrelative (append_eq_nil_iff.mp (List.cons.inj heq).2).1
  rw [normalizePath]
  rw [if_neg hdot, hbehind, hfront, if_neg hroot]

/-- A path that leads to the root is empty. -/
theorem normalizePath_of_root (hclean : pathClean path = ascii "." ∨ pathClean path = ascii "/") :
    normalizePath path = [] := by
  have hroot : (if pathClean path = ascii "." then ascii "/" else pathClean path) = ascii "/" := by
    obtain heq | heq := hclean
    · rw [if_pos heq]
    · rw [heq]
      rfl
  have hend : ¬ ((ascii "/").getLast? ≠ some '/'.toUInt8 ∧ path.getLast? = some '/'.toUInt8) :=
    fun hand => hand.1 rfl
  have hhead : ¬ (ascii "/").head? ≠ some '/'.toUInt8 := fun hne => hne rfl
  rw [normalizePath]
  rw [hroot, if_neg hend, if_neg hhead, if_pos rfl]

/-- **What a normalised path is.** -/
theorem normalizePath_eq (path : Bytes) :
    normalizePath path =
      if normalizedParts path = [] then [] else pathOf (normalizedParts path) ++
        trailingSlash path := by
  have hparts : ∀ x ∈ normalizedParts path, IsPart x := fun _ => isPart_normalizedParts
  by_cases hrooted : path.head? = some '/'.toUInt8
  · have hclean := pathClean_of_rooted hrooted
    have hlocation : normalizedParts path = location path := by
      rw [normalizedParts, rootClimbs_of_rooted hrooted]
      rfl
    rw [hlocation] at hparts ⊢
    by_cases hnil : location path = []
    · rw [hnil] at hclean
      rw [if_pos hnil]
      exact normalizePath_of_root (.inr hclean)
    · rw [rootedPath, if_neg hnil] at hclean
      rw [if_neg hnil]
      exact normalizePath_of_clean hparts hnil (.inl hclean)
  · have hclean := pathClean_of_relative hrooted
    by_cases hnil : normalizedParts path = []
    · rw [if_pos hnil] at hclean
      rw [if_pos hnil]
      exact normalizePath_of_root (.inl hclean)
    · rw [if_neg hnil] at hclean
      rw [if_neg hnil]
      exact normalizePath_of_clean hparts hnil (.inr hclean)

/-! ### Traversals -/

theorem segments_pathOf_append (h : ∀ x ∈ parts, '/'.toUInt8 ∉ x) (path : Bytes) :
    segments (pathOf parts ++ trailingSlash path) =
      parts ++ if path.getLast? = some '/'.toUInt8 then [[]] else [] := by
  rw [trailingSlash]
  by_cases hslash : path.getLast? = some '/'.toUInt8
  · rw [if_pos hslash, if_pos hslash, segments_append, segments_pathOf h]
    rfl
  · rw [if_neg hslash, if_neg hslash, append_nil, append_nil, segments_pathOf h]

/-- The location of a path is the one of its segments. -/
theorem location_of_rooted (h : path = [] ∨ path.head? = some '/'.toUInt8) :
    location path = (segments path).foldl locationStep [] := by
  obtain rfl | h := h
  · rfl
  · obtain ⟨rest, rfl⟩ := head?_eq_some_iff.mp h
    rw [location_slash_cons, segments_cons]

theorem foldl_locationStep_elements {xs : List Bytes} (h : ∀ x ∈ xs, IsElement x) :
    xs.foldl locationStep loc = loc ++ xs := by
  induction xs generalizing loc with
  | nil => exact (append_nil loc).symm
  | cons x xs ih =>
    obtain ⟨hx, hxs⟩ := forall_mem_cons.mp h
    rw [foldl_cons, locationStep_element loc hx, ih hxs, append_assoc, singleton_append]

/-- The segments of a normalised path. -/
def normalizedSegments (path : Bytes) : List Bytes :=
  if normalizedParts path = [] then []
  else normalizedParts path ++ if path.getLast? = some '/'.toUInt8 then [[]] else []

theorem segments_normalizePath_eq (path : Bytes) : segments (normalizePath path) =
    normalizedSegments path := by
  rw [normalizePath_eq, normalizedSegments]
  by_cases hnil : normalizedParts path = []
  · rw [if_pos hnil, if_pos hnil]
    rfl
  · rw [if_neg hnil, if_neg hnil]
    exact segments_pathOf_append (fun _ hx => (isPart_normalizedParts hx).2.1) path

theorem getLast?_normalizePath (h : (normalizePath path).getLast? = some '/'.toUInt8) :
    path.getLast? = some '/'.toUInt8 := by
  by_contra hslash
  rw [normalizePath_eq, trailingSlash, if_neg hslash, append_nil] at h
  by_cases hnil : normalizedParts path = []
  · rw [if_pos hnil] at h
    cases h
  · rw [if_neg hnil] at h
    exact getLast?_pathOf (fun _ => isPart_normalizedParts) h

/-- A path that does not climb out of the root leads to the same location. -/
theorem location_normalizePath (h : rootClimbs path = 0) :
    location (normalizePath path) = location path := by
  have hparts : normalizedParts path = location path := by
    rw [normalizedParts, h]
    rfl
  have helements : ∀ x ∈ location path, IsElement x := fun _ => isElement_of_mem_location
  rw [location_of_rooted (head?_normalizePath path), segments_normalizePath_eq,
    normalizedSegments, hparts]
  by_cases hnil : location path = []
  · rw [if_pos hnil, hnil]
    rfl
  · have hend : ∀ loc, List.foldl locationStep loc
        (if path.getLast? = some '/'.toUInt8 then [[]] else []) = loc := by
      intro loc
      by_cases hslash : path.getLast? = some '/'.toUInt8
      · rw [if_pos hslash, foldl_cons, foldl_nil, locationStep_eq_of_plain (.inl rfl)]
      · rw [if_neg hslash, foldl_nil]
    rw [if_neg hnil, foldl_append, foldl_locationStep_elements helements, nil_append, hend]

theorem rootClimbs_normalizePath (path : Bytes) : rootClimbs (normalizePath path) = 0 := by
  obtain hnil | hrooted := head?_normalizePath path
  · rw [hnil]
    rfl
  · exact rootClimbs_of_rooted hrooted

/-- A path that does not climb out of the root is normalised once and for all. -/
theorem normalizePath_normalizePath (h : rootClimbs path = 0) :
    normalizePath (normalizePath path) = normalizePath path := by
  have hparts : normalizedParts path = location path := by
    rw [normalizedParts, h]
    rfl
  have hparts' : normalizedParts (normalizePath path) = location path := by
    rw [normalizedParts, rootClimbs_normalizePath, location_normalizePath h]
    rfl
  have hout := normalizePath_eq path
  rw [hparts] at hout
  rw [normalizePath_eq (normalizePath path), hparts']
  by_cases hnil : location path = []
  · rw [if_pos hnil] at hout ⊢
    exact hout.symm
  · rw [if_neg hnil] at hout ⊢
    have hslash : trailingSlash (normalizePath path) = trailingSlash path := by
      by_cases hlast : path.getLast? = some '/'.toUInt8
      · have hend : (normalizePath path).getLast? = some '/'.toUInt8 := by
          rw [hout, trailingSlash, if_pos hlast, getLast?_concat]
        rw [trailingSlash, trailingSlash, if_pos hlast, if_pos hend]
      · rw [trailingSlash, trailingSlash, if_neg hlast,
          if_neg fun hend => hlast (getLast?_normalizePath hend)]
    rw [hslash, hout]

/-- The `..` that a path has met at the root are segments of the normalised path. -/
theorem dotdot_mem_segments (h : rootClimbs path ≠ 0) :
    ascii ".." ∈ segments (normalizePath path) := by
  have hmem : ascii ".." ∈ normalizedParts path :=
    mem_append_left _ (mem_replicate.mpr ⟨h, rfl⟩)
  rw [segments_normalizePath_eq, normalizedSegments, if_neg (ne_nil_of_mem hmem)]
  exact mem_append_left _ hmem

theorem Normalized.of_mem_segments {out : Bytes} (h : Normalized path out) (hx : x ∈ segments out) :
    x = [] ∨ IsElement x := by
  obtain ⟨init, y, hinit⟩ := (eq_nil_or_concat (segments out)).resolve_left (ne_nil_of_mem hx)
  rw [concat_eq_append] at hinit
  have hplain := h.plain
  have hlast := h.last
  rw [hinit, dropLast_concat] at hplain
  rw [hinit, getLast?_concat] at hlast
  rw [hinit] at hx
  obtain hx | hx := mem_append.mp hx
  · exact .inr (hplain x hx)
  · exact hlast x (congrArg some (mem_singleton.mp hx).symm)

/-- **A path that does not climb out of the root is normalised.** -/
theorem normalized_normalizePath (h : rootClimbs path = 0) :
    Normalized path (normalizePath path) := by
  have hparts : normalizedParts path = location path := by
    rw [normalizedParts, h]
    rfl
  have helements : ∀ x ∈ location path, IsElement x := fun _ => isElement_of_mem_location
  have hsegments := segments_normalizePath_eq path
  rw [normalizedSegments, hparts] at hsegments
  refine ⟨head?_normalizePath path, ?_, ?_, getLast?_normalizePath, location_normalizePath h,
    normalizePath_normalizePath h⟩
  · intro x hx
    rw [hsegments] at hx
    by_cases hnil : location path = []
    · rw [if_pos hnil] at hx
      exact absurd hx not_mem_nil
    rw [if_neg hnil] at hx
    by_cases hslash : path.getLast? = some '/'.toUInt8
    · rw [if_pos hslash, dropLast_concat] at hx
      exact helements x hx
    · rw [if_neg hslash, append_nil] at hx
      exact helements x (mem_of_mem_dropLast hx)
  · intro x hx
    rw [hsegments] at hx
    by_cases hnil : location path = []
    · rw [if_pos hnil] at hx
      cases hx
    rw [if_neg hnil] at hx
    by_cases hslash : path.getLast? = some '/'.toUInt8
    · rw [if_pos hslash, getLast?_concat] at hx
      exact .inl (Option.some.inj hx).symm
    · rw [if_neg hslash, append_nil] at hx
      exact .inr (helements x (mem_of_getLast? hx))

/-- **A path is normalised if and only if it is rooted, or never climbs out of the root.** -/
theorem normalized_normalizePath_iff (path : Bytes) :
    Normalized path (normalizePath path) ↔ rootClimbs path = 0 := by
  constructor
  · intro h
    by_contra hclimbs
    obtain hnil | helement := h.of_mem_segments (dotdot_mem_segments hclimbs)
    · exact absurd hnil (by decide)
    · exact helement.2.2.2 rfl
  · exact normalized_normalizePath

/-- The target of a request that climbs out of the root, as the parser reads it. -/
theorem not_normalized_dotdot :
    ((Http.parseHeadCapturing (ascii "GET ../admin HTTP/1.1\r\n\r\n") false).map (·.path) =
      some (ascii "../admin") ∧
      normalizePath (ascii "../admin") = ascii "/../admin") ∧
      ¬ Normalized (ascii "../admin") (normalizePath (ascii "../admin")) := by
  refine ⟨by decide +kernel, fun h => ?_⟩
  have hplain := h.plain (ascii "..") (by decide +kernel)
  exact hplain.2.2.2 rfl

end Esmetrics.Auth
