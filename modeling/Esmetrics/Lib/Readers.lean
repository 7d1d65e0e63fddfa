import Esmetrics.Lib.FixedWidth

/-!
# Readers of encodings

A reader takes a value from the front of a byte string and returns it with the rest. `ReadsBackIff`
says of an encoding exactly when a reader takes its value back, so that the condition of a format is
that of its parts (`readsBackIff_flatMap`).
-/

namespace Esmetrics

variable {α : Type*}

/-- The first bytes, and the rest. -/
def splitFirst (n : ℕ) (src : Bytes) : Option (Bytes × Bytes) :=
  if src.length < n then none else some (src.take n, src.drop n)

/-- So many values, one behind the other. -/
def readMany (rd : Bytes → Option (α × Bytes)) : ℕ → Bytes → Option (List α × Bytes)
  | 0, src => some ([], src)
  | n + 1, src => do
    let (x, src) ← rd src
    let (xs, src) ← readMany rd n src
    return (x :: xs, src)

/-- The reader takes the value of the encoding, and no more than the encoding, if and only if `P`
holds. -/
def ReadsBackIff (rd : Bytes → Option (α × Bytes)) (enc : Bytes) (x : α) (P : Prop) : Prop :=
  ∀ rest rest', rd (enc ++ rest) = some (x, rest') ↔ P ∧ rest' = rest

theorem splitFirst_append {n : ℕ} {s : Bytes} (h : s.length = n) (rest : Bytes) :
    splitFirst n (s ++ rest) = some (s, rest) := by
  subst h
  rw [splitFirst, if_neg (by simp), List.take_left, List.drop_left]

theorem length_of_splitFirst {n : ℕ} {src s rest : Bytes} (h : splitFirst n src = some (s, rest)) :
    s.length = n := by
  rw [splitFirst] at h
  split_ifs at h with hn
  obtain ⟨rfl, -⟩ := Prod.mk.inj (Option.some.inj h)
  exact List.length_take_of_le (not_lt.mp hn)

theorem length_of_readMany {rd : Bytes → Option (α × Bytes)} {n : ℕ} {src rest : Bytes}
    {xs : List α}
    (h : readMany rd n src = some (xs, rest)) : xs.length = n := by
  induction n generalizing src xs with
  | zero =>
    obtain ⟨rfl, -⟩ := Prod.mk.inj (Option.some.inj h)
    rfl
  | succ n ih =>
    obtain ⟨⟨x, src⟩, -, h⟩ := Option.bind_eq_some_iff.mp h
    obtain ⟨⟨xs, src'⟩, htail, h⟩ := Option.bind_eq_some_iff.mp h
    obtain ⟨rfl, rfl⟩ := Prod.mk.inj (Option.some.inj h)
    rw [List.length_cons, ih htail]

/-- Values one behind the other are taken back if and only if each of them is. -/
theorem readsBackIff_flatMap {rd : Bytes → Option (α × Bytes)} {enc : α → Bytes} {P : α → Prop}
    {xs : List α}
    (h : ∀ x ∈ xs, ReadsBackIff rd (enc x) x (P x)) :
    ReadsBackIff (readMany rd xs.length) (xs.flatMap enc) xs (∀ x ∈ xs, P x) := by
  induction xs with
  | nil =>
    intro rest rest'
    simp [readMany, eq_comm]
  | cons x xs ih =>
    intro rest rest'
    have htail := ih fun y hy => h y (List.mem_cons_of_mem x hy)
    rw [List.flatMap_cons, List.append_assoc, List.length_cons, List.forall_mem_cons]
    constructor
    · intro hread
      obtain ⟨⟨x', r⟩, hx, hread⟩ := Option.bind_eq_some_iff.mp hread
      obtain ⟨⟨xs', r'⟩, hxs, hread⟩ := Option.bind_eq_some_iff.mp hread
      obtain ⟨hcons, rfl⟩ := Prod.mk.inj (Option.some.inj hread)
      obtain ⟨rfl, rfl⟩ := List.cons.inj hcons
      obtain ⟨hP, rfl⟩ := (h _ List.mem_cons_self _ _).mp hx
      obtain ⟨hPs, hrest⟩ := (htail _ _).mp hxs
      exact ⟨⟨hP, hPs⟩, hrest⟩
    · rintro ⟨⟨hP, hPs⟩, rfl⟩
      rw [readMany, (h x List.mem_cons_self _ _).mpr ⟨hP, rfl⟩]
      dsimp only [Option.bind_eq_bind, Option.bind_some]
      rw [(htail _ _).mpr ⟨hPs, rfl⟩]
      rfl

end Esmetrics
