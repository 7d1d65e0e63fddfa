import Esmetrics.Lib.Escape

/-!
# Text as lines

A text is a last line, or a line and the text after its newline (`line_induction`). A function of
the text that reads its lines one by one (`LineByLine`) reads a text cut at line ends piece by piece
(`LineByLine.intercalate`), and a newline at the end makes no difference. `forLines` is the loop
that does so.
-/

namespace Esmetrics

open List

variable {α β : Type} {nl : α}

theorem line_induction (nl : α) {motive : List α → Prop} (last : ∀ l, nl ∉ l → motive l)
    (line : ∀ l s, nl ∉ l → motive s → motive (l ++ nl :: s)) (s : List α) : motive s := by
  induction hn : s.length using Nat.strongRecOn generalizing s with
  | ind n ih =>
    by_cases hmem : nl ∈ s
    · obtain ⟨l, r, rfl, hl⟩ := eq_append_cons_of_mem hmem
      rw [length_append, length_cons] at hn
      exact line l r hl (ih r.length (by omega) r rfl)
    · exact last s hmem

/-! ### The last occurrence -/

/-- The position of the last element that satisfies `p`. -/
def rposition (p : α → Bool) (s : List α) : Option ℕ :=
  (s.reverse.findIdx? p).map (s.length - 1 - ·)

theorem rposition_eq_none {p : α → Bool} {s : List α} (h : rposition p s = none) :
    ∀ a ∈ s, p a = false :=
  fun a ha => findIdx?_eq_none_iff.mp (Option.map_eq_none_iff.mp h) a (mem_reverse.mpr ha)

/-- The last occurrence splits the list. -/
theorem exists_append_of_rposition {p : α → Bool} {s : List α} {n : ℕ}
    (h : rposition p s = some n) :
    ∃ l x r, s = l ++ x :: r ∧ p x = true ∧ (∀ a ∈ r, p a = false) ∧ l.length = n := by
  obtain ⟨k, hk, rfl⟩ := Option.map_eq_some_iff.mp h
  obtain ⟨hlt, hp, hbefore⟩ := findIdx?_eq_some_iff_getElem.mp hk
  have hsplit : s.reverse = s.reverse.take k ++ s.reverse[k] :: s.reverse.drop (k + 1) := by
    rw [getElem_cons_drop, take_append_drop]
  refine ⟨(s.reverse.drop (k + 1)).reverse, s.reverse[k], (s.reverse.take k).reverse,
    ?_, hp, ?_, ?_⟩
  · have hrev := congrArg List.reverse hsplit
    rw [reverse_reverse, reverse_append, reverse_cons, append_assoc] at hrev
    exact hrev
  · intro a ha
    obtain ⟨i, hi, rfl⟩ := mem_iff_getElem.mp (mem_reverse.mp ha)
    rw [length_take] at hi
    rw [getElem_take]
    exact Bool.eq_false_iff.mpr (hbefore i (by omega))
  · rw [length_reverse, length_drop, length_reverse]
    omega

/-! ### The lines of a text -/

section SplitOn

variable [DecidableEq α]

/-- What comes before the first newline belongs to the first line. -/
theorem exists_mem_splitOn_append {l : List α} (h : nl ∉ l) (s : List α) :
    ∃ line ∈ (l ++ s).splitOn nl, l <+: line := by
  induction s using line_induction nl with
  | last l' hl' =>
    have hnot : nl ∉ l ++ l' := fun hmem => (mem_append.mp hmem).elim h hl'
    exact ⟨l ++ l', by rw [splitOn_eq_singleton hnot]; exact mem_cons_self, prefix_append l l'⟩
  | line l' s hl' _ =>
    have hnot : nl ∉ l ++ l' := fun hmem => (mem_append.mp hmem).elim h hl'
    refine ⟨l ++ l', ?_, prefix_append l l'⟩
    rw [← append_assoc, splitOn_append_cons_self_of_not_mem hnot]
    exact mem_cons_self

theorem splitOn_intercalate {xs : List (List α)} (h : xs ≠ []) :
    ([nl].intercalate xs).splitOn nl = xs.flatMap (·.splitOn nl) := by
  induction xs with
  | nil => exact absurd rfl h
  | cons x xs ih =>
    cases xs with
    | nil => rw [intercalate_singleton, flatMap_cons, flatMap_nil, append_nil]
    | cons y xs =>
      rw [intercalate_cons_cons, append_assoc, singleton_append, splitOn_append_cons_self,
        ih (cons_ne_nil y xs)]
      rfl

/-- Joined texts are equal when they have the same pieces. -/
theorem intercalate_eq_iff {xs ys : List (List α)} (hx : xs ≠ []) (hy : ys ≠ []) :
    [nl].intercalate xs = [nl].intercalate ys ↔ xs.flatMap (·.splitOn nl) =
    ys.flatMap (·.splitOn nl) := by
  rw [← splitOn_intercalate hx, ← splitOn_intercalate hy]
  constructor
  · exact congrArg _
  · intro h
    rw [← @intercalate_splitOn α ([nl].intercalate xs) _ _ nl, h, intercalate_splitOn]

theorem splitOn_flatMap_concat {xs : List (List α)} (h : ∀ x ∈ xs, nl ∉ x) :
    (xs.flatMap (· ++ [nl])).splitOn nl = xs ++ [[]] := by
  induction xs with
  | nil => exact splitOn_nil nl
  | cons x xs ih =>
    obtain ⟨hx, hxs⟩ := forall_mem_cons.mp h
    rw [flatMap_cons, append_assoc, singleton_append,
      splitOn_append_cons_self_of_not_mem hx, ih hxs, cons_append]

/-- Texts with an end mark of their own can be told apart. -/
theorem flatMap_concat_eq_iff {xs ys : List (List α)} (hx : ∀ x ∈ xs, nl ∉ x)
    (hy : ∀ y ∈ ys, nl ∉ y) : xs.flatMap (· ++ [nl]) = ys.flatMap (· ++ [nl]) ↔ xs = ys := by
  constructor
  · intro h
    have hsplit := congrArg (List.splitOn nl) h
    rw [splitOn_flatMap_concat hx, splitOn_flatMap_concat hy] at hsplit
    exact append_cancel_right hsplit
  · exact fun h => h ▸ rfl

end SplitOn

/-! ### Reading line by line -/

/-- What is read of a text is what is read of its lines. -/
structure LineByLine (nl : α) (read : List α → List β) : Prop where
  nil : read [] = []
  append : ∀ s t, read (s ++ nl :: t) = read s ++ read t

namespace LineByLine

variable {read : List α → List β}

theorem of_line (row : List α → List β) (hnil : row [] = [])
    (hlast : ∀ l, nl ∉ l → read l = row l)
    (hline : ∀ l s, nl ∉ l → read (l ++ nl :: s) = row l ++ read s) : LineByLine nl read := by
  refine ⟨(hlast [] not_mem_nil).trans hnil, fun s t => ?_⟩
  induction s using line_induction nl with
  | last l hl => rw [hline l t hl, hlast l hl]
  | line l s hl ih =>
    rw [append_assoc, cons_append, hline l _ hl, ih, hline l s hl, append_assoc]

theorem append_singleton (h : LineByLine nl read) (s : List α) : read (s ++ [nl]) = read s := by
  rw [h.append, h.nil, append_nil]

/-- A text cut at line ends. -/
theorem intercalate (h : LineByLine nl read) (blocks : List (List α)) :
    read ([nl].intercalate blocks) = blocks.flatMap read := by
  induction blocks with
  | nil => exact h.nil
  | cons b bs ih =>
    cases bs with
    | nil => rw [intercalate_singleton, flatMap_singleton]
    | cons b' bs =>
      rw [intercalate_cons_cons, append_assoc, singleton_append, h.append, ih]
      rfl

end LineByLine

/-! ### The loop over the lines -/

section Loop

variable [DecidableEq α] (nl : α) (row : List α → List β)

def forLines (nl : α) (row : List α → List β) : List α → List β
  | [] => []
  | a :: s =>
    match (a :: s).idxOf? nl with
    | none => row (a :: s)
    | some n => row ((a :: s).take n) ++ forLines nl row ((a :: s).drop (n + 1))
termination_by s => s.length
decreasing_by
  rw [length_drop, length_cons]
  omega

variable {row}

theorem forLines_of_not_mem (hnil : row [] = []) {l : List α} (hl : nl ∉ l) :
    forLines nl row l = row l := by
  cases l with
  | nil => rw [forLines, hnil]
  | cons a l => rw [forLines, idxOf?_eq_none_iff.mpr hl]

theorem forLines_lineByLine (hnil : row [] = []) : LineByLine nl (forLines nl row) := by
  refine LineByLine.of_line row hnil (fun l hl => forLines_of_not_mem nl hnil hl) fun l s hl => ?_
  have hidx := idxOf?_append_cons hl s
  have htake : (l ++ nl :: s).take l.length = l := take_left
  have hdrop : (l ++ nl :: s).drop (l.length + 1) = s := by
    rw [← drop_drop, drop_left]
    rfl
  generalize l ++ nl :: s = text at hidx htake hdrop
  cases text with
  | nil => exact nomatch hidx
  | cons a text =>
    rw [forLines, hidx]
    dsimp only
    rw [htake, hdrop]

/-- A line has only the characters of the text. -/
theorem forLines_congr {row' : List α → List β} {s : List α}
    (h : ∀ l : List α, l ⊆ s → row l = row' l) : forLines nl row s = forLines nl row' s := by
  induction hn : s.length using Nat.strongRecOn generalizing s with
  | ind n ih =>
    cases s with
    | nil => rw [forLines, forLines]
    | cons a s =>
      rw [forLines, forLines]
      cases (a :: s).idxOf? nl with
      | none => exact h _ (Subset.refl _)
      | some k =>
        have hlt : ((a :: s).drop (k + 1)).length < n := by
          rw [← hn, length_drop, length_cons]
          omega
        dsimp only
        rw [h _ (take_subset k _),
          ih _ hlt (fun l hl => h l (Subset.trans hl (drop_subset _ _))) rfl]

end Loop

end Esmetrics
