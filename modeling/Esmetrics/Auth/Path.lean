import Esmetrics.Lib.UrlSyntax

/-!
# Request paths

Model of `normalize_path`, `path_clean` and `drop_prefix_parts` in `esm-auth/src/route.rs`. Paths
are percent-decoded texts.

What is left of a path when it is normalised and cut is empty or starts with a slash
(`head?_dropPrefixParts`).
-/

namespace Esmetrics.Auth

open List

open UrlSyntax

/-- The last slash at or before a position, but not before `dotdot`. -/
def lastSlash (out : Bytes) (dotdot : ℕ) : ℕ → ℕ
  | 0 => 0
  | w + 1 =>
    if dotdot < w + 1 ∧ out[w + 1]? ≠ some '/'.toUInt8 then lastSlash out dotdot w else w + 1

/-- The loop over the elements of a path; before `dotdot` nothing is removed. -/
def pathCleanLoop (rooted : Bool) : ℕ → Bytes → Bytes → ℕ → Bytes
  | 0, _, out, _ => out
  | _ + 1, [], out, _ => out
  | fuel + 1, c :: rest, out, dotdot =>
    if c = '/'.toUInt8 then pathCleanLoop rooted fuel rest out dotdot
    else if c = '.'.toUInt8 ∧ (rest = [] ∨ rest.head? = some '/'.toUInt8) then
      pathCleanLoop rooted fuel rest out dotdot
    else if c = '.'.toUInt8 ∧ rest.head? = some '.'.toUInt8 ∧
        (rest.tail = [] ∨ rest.tail.head? = some '/'.toUInt8) then
      if dotdot < out.length then
        pathCleanLoop rooted fuel rest.tail
          (out.take (lastSlash out dotdot (out.length - 1))) dotdot
      else if rooted then pathCleanLoop rooted fuel rest.tail out dotdot
      else
        let out := (if out = [] then [] else out ++ ['/'.toUInt8]) ++ ascii ".."
        pathCleanLoop rooted fuel rest.tail out out.length
    else
      let out :=
        if (if rooted then out.length ≠ 1 else out ≠ []) then out ++ ['/'.toUInt8] else out
      pathCleanLoop rooted fuel ((c :: rest).dropWhile (· ≠ '/'.toUInt8))
        (out ++ (c :: rest).takeWhile (· ≠ '/'.toUInt8)) dotdot

/-- Resolves the elements `.` and `..` of a path. -/
def pathClean (path : Bytes) : Bytes :=
  if path = [] then ascii "."
  else
    let rooted : Bool := path.head? = some '/'.toUInt8
    let out :=
      if rooted then pathCleanLoop rooted path.length path.tail ['/'.toUInt8] 1
      else pathCleanLoop rooted path.length path [] 0
    if out = [] then ascii "." else out

/-- The path that a request is routed by; the root is the empty path. -/
def normalizePath (path : Bytes) : Bytes :=
  let cleaned := pathClean path
  let cleaned := if cleaned = ascii "." then ascii "/" else cleaned
  let cleaned :=
    if cleaned.getLast? ≠ some '/'.toUInt8 ∧ path.getLast? = some '/'.toUInt8 then
      cleaned ++ ['/'.toUInt8]
    else cleaned
  let cleaned := if cleaned.head? ≠ some '/'.toUInt8 then '/'.toUInt8 :: cleaned else cleaned
  if cleaned = ascii "/" then [] else cleaned

/-- The path without its first parts. -/
def dropPrefixParts (path : Bytes) : ℕ → Bytes
  | 0 => path
  | parts + 1 =>
    let rest := if path.head? = some '/'.toUInt8 then path.tail else path
    if '/'.toUInt8 ∈ rest then dropPrefixParts (rest.dropWhile (· ≠ '/'.toUInt8)) parts else []

example : normalizePath (ascii "/a/b/../../../c//./d/") = ascii "/c/d/" ∧
    normalizePath (ascii "../../x") = ascii "/../../x" ∧
    dropPrefixParts (ascii "/a/b/c") 2 = ascii "/c" := by decide +kernel

/-! ### The first character -/

theorem head?_normalizePath (path : Bytes) :
    normalizePath path = [] ∨ (normalizePath path).head? = some '/'.toUInt8 := by
  rw [normalizePath]
  split_ifs with _ _ _ hslash <;> simp_all

/-- What is left of a path is empty or starts with a slash, and its segments are the path's. -/
theorem head?_dropPrefixParts {path : Bytes}
    (h : path = [] ∨ path.head? = some '/'.toUInt8) (parts : ℕ) :
    (dropPrefixParts path parts = [] ∨
      (dropPrefixParts path parts).head? = some '/'.toUInt8) ∧
      segments (dropPrefixParts path parts) ⊆ segments path := by
  induction parts generalizing path with
  | zero => exact ⟨h, Subset.refl _⟩
  | succ parts ih =>
    rw [dropPrefixParts]
    obtain rfl | hhead := h
    · exact ⟨.inl rfl, Subset.refl _⟩
    · obtain ⟨rest, rfl⟩ := head?_eq_some_iff.mp hhead
      rw [if_pos hhead, tail_cons]
      split_ifs with hmem
      · obtain ⟨l, r, rfl, hl⟩ := eq_append_cons_of_mem hmem
        have hdrop : (l ++ '/'.toUInt8 :: r).dropWhile (· ≠ '/'.toUInt8) = '/'.toUInt8 :: r := by
          rw [dropWhile_append_of_pos]
          · simp
          · exact fun b hb => decide_eq_true fun heq : b = '/'.toUInt8 => hl (heq ▸ hb)
        rw [hdrop]
        obtain ⟨hfirst, hsub⟩ := @ih ('/'.toUInt8 :: r) (.inr rfl)
        refine ⟨hfirst, Subset.trans hsub ?_⟩
        rw [segments_cons, segments_cons, splitOn_append_cons_self_of_not_mem hl]
        exact subset_cons_self _ _
      · exact ⟨.inl rfl, nil_subset _⟩

/-! ### Rooted paths -/

/-- An element that is no dot segment. -/
def IsElement (x : Bytes) : Prop :=
  x ≠ [] ∧ '/'.toUInt8 ∉ x ∧ x ≠ ascii "." ∧ x ≠ ascii ".."

/-- The rooted path of a list of elements. -/
def rootedPath (elements : List Bytes) : Bytes :=
  if elements = [] then ['/'.toUInt8] else pathOf elements

variable {elements : List Bytes}

theorem length_rootedPath (h : ∀ x ∈ elements, IsElement x) :
    (rootedPath elements).length = 1 ↔ elements = [] := by
  rw [rootedPath]
  split_ifs with hnil
  · simp [hnil]
  · obtain ⟨x, elements, rfl⟩ := exists_cons_of_ne_nil hnil
    have hpos := length_pos_of_ne_nil (h x (mem_cons_self ..)).1
    simp only [pathOf, flatMap_cons, length_append, length_cons, hnil, iff_false]
    omega

/-- The slash in front of the last element, unless it is the first character. -/
theorem lastSlash_append {a x : Bytes} (hx : '/'.toUInt8 ∉ x) {k : ℕ} (hk : k ≤ x.length) :
    lastSlash (a ++ '/'.toUInt8 :: x) 1 (a.length + k) = max a.length (min 1 (a.length + k)) := by
  induction k with
  | zero =>
    rw [Nat.add_zero]
    cases hn : a.length with
    | zero => rfl
    | succ n =>
      have hget : (a ++ '/'.toUInt8 :: x)[n + 1]? = some '/'.toUInt8 := by
        rw [← hn, getElem?_append_right le_rfl, Nat.sub_self]
        rfl
      rw [lastSlash, if_neg fun hcond => hcond.2 hget]
      omega
  | succ k ih =>
    have hget : (a ++ '/'.toUInt8 :: x)[a.length + k + 1]? ≠ some '/'.toUInt8 := by
      rw [getElem?_append_right (by omega), show a.length + k + 1 - a.length = k + 1 by omega,
        getElem?_cons_succ]
      exact fun heq => hx (mem_of_getElem? heq)
    rw [← Nat.add_assoc, lastSlash]
    split_ifs with hcond
    · rw [ih (by omega)]
      omega
    · have hsmall : ¬ 1 < a.length + k + 1 := fun hlt => hcond ⟨hlt, hget⟩
      omega

/-- Without its last element a rooted path is the path of the others. -/
theorem take_rootedPath (hne : elements ≠ []) (h : ∀ x ∈ elements, IsElement x) :
    (rootedPath elements).take (lastSlash (rootedPath elements) 1
      ((rootedPath elements).length - 1)) =
      rootedPath elements.dropLast := by
  obtain ⟨init, x, rfl⟩ := (eq_nil_or_concat elements).resolve_left hne
  rw [concat_eq_append] at h hne ⊢
  obtain ⟨hxne, hx, -, -⟩ := h x (mem_append_right _ (mem_singleton_self x))
  have hpos := length_pos_of_ne_nil hxne
  have hpath : rootedPath (init ++ [x]) = pathOf init ++ '/'.toUInt8 :: x := by
    rw [rootedPath, if_neg hne, pathOf_append]
    simp [pathOf]
  have hlast : (pathOf init ++ '/'.toUInt8 :: x).length - 1 = (pathOf init).length + x.length := by
    simp
  rw [hpath, hlast, lastSlash_append hx le_rfl, dropLast_concat, rootedPath]
  split_ifs with hinit
  · have hmax : max (pathOf init).length (min 1 ((pathOf init).length + x.length)) = 1 := by
      simp [hinit, pathOf]
      omega
    rw [hmax, hinit]
    rfl
  · have hlong : 1 ≤ (pathOf init).length := by
      obtain ⟨y, init, rfl⟩ := exists_cons_of_ne_nil hinit
      simp [pathOf]
    rw [show max (pathOf init).length (min 1 ((pathOf init).length + x.length)) =
      (pathOf init).length by omega, take_left]

theorem eq_nil_or_head?_of_takeWhile {s : Bytes} (h : s.takeWhile (· ≠ '/'.toUInt8) = []) :
    s = [] ∨ s.head? = some '/'.toUInt8 := by
  cases s with
  | nil => exact .inl rfl
  | cons c s =>
    by_cases hc : c = '/'.toUInt8
    · exact .inr (congrArg some hc)
    · simp [hc] at h

/-- The text up to the next slash is an element where it is none of the dot segments. -/
theorem isElement_takeWhile {c : UInt8} {rest : Bytes} (hslash : c ≠ '/'.toUInt8)
    (hdot : ¬ (c = '.'.toUInt8 ∧ (rest = [] ∨ rest.head? = some '/'.toUInt8)))
    (hdotdot : ¬ (c = '.'.toUInt8 ∧ rest.head? = some '.'.toUInt8 ∧
      (rest.tail = [] ∨ rest.tail.head? = some '/'.toUInt8))) :
    IsElement ((c :: rest).takeWhile (· ≠ '/'.toUInt8)) := by
  have htake : (c :: rest).takeWhile (· ≠ '/'.toUInt8) = c :: rest.takeWhile (· ≠ '/'.toUInt8) := by
    simp [hslash]
  rw [htake]
  refine ⟨cons_ne_nil _ _, ?_, ?_, ?_⟩
  · rw [mem_cons]
    rintro (heq | hmem)
    · exact hslash heq.symm
    · exact of_decide_eq_true (mem_takeWhile_imp (p := (· ≠ '/'.toUInt8)) hmem) rfl
  · intro heq
    obtain ⟨rfl, hnil⟩ := List.cons.inj heq
    exact hdot ⟨rfl, eq_nil_or_head?_of_takeWhile hnil⟩
  · intro heq
    obtain ⟨rfl, hone⟩ := List.cons.inj heq
    cases rest with
    | nil => cases hone
    | cons d rest =>
      by_cases hd : d = '/'.toUInt8
      · simp [hd] at hone
      · have htake' : (d :: rest).takeWhile (· ≠ '/'.toUInt8) =
            d :: rest.takeWhile (· ≠ '/'.toUInt8) := by simp [hd]
        rw [htake'] at hone
        obtain ⟨rfl, hnil⟩ := List.cons.inj hone
        exact hdotdot ⟨rfl, rfl, eq_nil_or_head?_of_takeWhile hnil⟩

theorem rootedPath_append (elements : List Bytes) (x : Bytes) :
    rootedPath (elements ++ [x]) =
      (if elements = [] then ['/'.toUInt8] else rootedPath elements ++ ['/'.toUInt8]) ++ x := by
  rw [rootedPath, if_neg (by simp), pathOf_append, rootedPath]
  split_ifs with hnil
  · rw [hnil]
    simp [pathOf]
  · simp [pathOf]

theorem segments_pathOf (h : ∀ x ∈ elements, '/'.toUInt8 ∉ x) :
    segments (pathOf elements) = elements := by
  induction elements with
  | nil => rfl
  | cons x elements ih =>
    have hx : segments ('/'.toUInt8 :: x) = [x] := by
      rw [segments_cons, splitOn_eq_singleton (h x (mem_cons_self ..))]
    have htail := ih fun y hy => h y (mem_cons_of_mem _ hy)
    rw [pathOf, flatMap_cons, ← pathOf]
    cases elements with
    | nil =>
      rw [pathOf, flatMap_nil, append_nil, hx]
    | cons y elements =>
      rw [pathOf, flatMap_cons, cons_append] at htail ⊢
      rw [cons_append, ← cons_append, segments_append, hx, htail, singleton_append]

end Esmetrics.Auth
