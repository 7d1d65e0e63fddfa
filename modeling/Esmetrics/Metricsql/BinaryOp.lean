import Mathlib.Data.Int.Order.Basic
import Mathlib.Logic.Function.Iterate
import Mathlib.Tactic.Common

/-!
# Binary operators and their trees

Model of the priorities of `esm-metricsql/src/binaryop.rs` and of `balance_binary_op`
(`esm-metricsql/src/parser.rs`), which puts an operator with its right operand into the tree of
everything before it by going down the right spine of that tree.

A tree is in order (`Ordered`) when the priorities of its operators say so. A unary minus is the
node `0 - x`, and where such a node is a right operand the priorities are those of `x`. The tree
that `balanceBinaryOp` builds from a chain of operands and operators is the only tree in order that
reads as this chain (`Chain.ordered_tree`, `Chain.eq_tree`).
-/

namespace Esmetrics.Metricsql

open List

/-! ### Operators -/

/-- The binary operators. -/
inductive BinaryOp where
  | add
  | sub
  | mul
  | div
  | mod
  | pow
  | atan2
  | eq
  | neq
  | gt
  | lt
  | gte
  | lte
  | and
  | or
  | unless
  | ifOp
  | ifnot
  | default
  deriving DecidableEq

/-- The priority of an operator. -/
def binaryOpPriority : BinaryOp → ℤ
  | .default => -1
  | .ifOp | .ifnot => 0
  | .or => 1
  | .and | .unless => 2
  | .eq | .neq | .lt | .gt | .lte | .gte => 3
  | .add | .sub => 4
  | .mul | .div | .mod | .atan2 => 5
  | .pow => 6

def isRightAssociativeBinaryOp (op : BinaryOp) : Bool := op == .pow

def isBinaryOpCmp : BinaryOp → Bool
  | .eq | .neq | .gt | .lt | .gte | .lte => true
  | _ => false

def isBinaryOpLogicalSet : BinaryOp → Bool
  | .and | .or | .unless => true
  | _ => false

/-- A modifier such as `on (…)` or `group_left (…)`. -/
structure ModifierExpr where
  op : String
  args : List String
  deriving DecidableEq

/-- A token of a string expression. -/
inductive StringPart where
  | quoted (s : String)
  | ident (name : String)
  deriving DecidableEq

/-- A binary operator with its modifiers: a `BinaryOpExpr` without its operands. -/
structure Operator where
  op : BinaryOp
  boolModifier : Bool
  groupModifier : Option ModifierExpr
  joinModifier : Option ModifierExpr
  joinModifierPrefix : Option (List StringPart)
  keepMetricNames : Bool
  deriving DecidableEq

/-- An operator without modifiers. -/
def BinaryOp.plain (op : BinaryOp) : Operator := ⟨op, false, none, none, none, false⟩

/-! ### Trees -/

variable {α ρ : Type}

/-- Expressions over operands `α` and rollup suffixes `ρ`. -/
inductive Expr (α ρ : Type) where
  | operand (a : α)
  /-- The number that a unary minus subtracts from; it has no text. -/
  | zero
  | parens (exprs : List (Expr α ρ))
  | rollup (expr : Expr α ρ) (suffix : ρ)
  | binaryOp (o : Operator) (left right : Expr α ρ)

/-- Puts an operator with its right operand into the tree that is its left operand. -/
def balanceBinaryOp (o : Operator) : Expr α ρ → Expr α ρ → Expr α ρ
  | .binaryOp ol ll lr, right =>
    let lp := binaryOpPriority ol.op
    let rp := binaryOpPriority o.op
    if rp < lp || (rp == lp && !isRightAssociativeBinaryOp o.op) then
      .binaryOp o (.binaryOp ol ll lr) right
    else .binaryOp ol ll (balanceBinaryOp o lr right)
  | left, right => .binaryOp o left right

/-- The expression `-x`, which is `0 - x`. -/
def unaryMinus (x : Expr α ρ) : Expr α ρ := .binaryOp BinaryOp.sub.plain .zero x

/-- What stands in the in-order traversal of a tree. -/
inductive Item (α ρ : Type) where
  | atom (e : Expr α ρ)
  | op (o : Operator)

/-- The in-order traversal of a tree. Only binary operations have parts. -/
def Expr.inorder : Expr α ρ → List (Item α ρ)
  | .binaryOp o l r => l.inorder ++ .op o :: r.inorder
  | e => [.atom e]

/-- The operator at the root. -/
def Expr.op? : Expr α ρ → Option BinaryOp
  | .binaryOp o _ _ => some o.op
  | _ => none

/-- The operand of the unary minuses at the root; nothing else subtracts from `zero`. -/
def Expr.underMinus : Expr α ρ → Expr α ρ
  | .binaryOp _ .zero x => x.underMinus
  | e => e

/-! ### Trees in order -/

/-- Whether `l` may be the operator of the left operand of `p`. -/
def LeftPriority (p l : BinaryOp) : Prop :=
  if isRightAssociativeBinaryOp p then binaryOpPriority l > binaryOpPriority p
  else binaryOpPriority l ≥ binaryOpPriority p

/-- Whether `r` may be the operator of the right operand of `p`. -/
def RightPriority (p r : BinaryOp) : Prop :=
  if isRightAssociativeBinaryOp p then binaryOpPriority r ≥ binaryOpPriority p
  else binaryOpPriority r > binaryOpPriority p

/-- Whether `x` may be the right operand of `p`. -/
def RightOk (p : BinaryOp) (x : Expr α ρ) : Prop := ∀ r ∈ x.underMinus.op?, RightPriority p r

/-- The trees in order; an expression in parentheses is an operand. -/
inductive Ordered : Expr α ρ → Prop
  | operand (a : α) : Ordered (.operand a)
  | parens (exprs : List (Expr α ρ)) : Ordered (.parens exprs)
  | rollup (expr : Expr α ρ) (suffix : ρ) : Ordered (.rollup expr suffix)
  | minus {x : Expr α ρ} (hx : Ordered x) (hright : RightOk .sub x) : Ordered (unaryMinus x)
  | binaryOp {o : Operator} {l r : Expr α ρ} (hl : Ordered l) (hr : Ordered r)
      (hleft : ∀ q ∈ l.op?, LeftPriority o.op q) (hright : RightOk o.op r) :
      Ordered (.binaryOp o l r)

variable {e : Expr α ρ} {p q : BinaryOp}

theorem Ordered.ne_zero (h : Ordered e) : e ≠ .zero := by
  rintro rfl
  cases h

theorem rightPriority_trans {r : BinaryOp} (hpq : RightPriority p q) (hqr : RightPriority q r) :
    RightPriority p r := by
  unfold RightPriority at *
  split_ifs at * <;> omega

/-- Only `^` has the priority of `^`. -/
theorem binaryOpPriority_eq_six :
    isRightAssociativeBinaryOp p = true ↔ binaryOpPriority p = 6 := by
  cases p <;> decide

theorem binaryOpPriority_le_six (p : BinaryOp) : binaryOpPriority p ≤ 6 := by
  cases p <;> decide

/-- An operator may stand on the left of another one, or it takes that one into its right
operand. -/
theorem leftPriority_iff {l : BinaryOp} : LeftPriority p l ↔ ¬ RightPriority l p := by
  have hp := binaryOpPriority_le_six p
  have hl := binaryOpPriority_le_six l
  unfold LeftPriority RightPriority
  simp only [binaryOpPriority_eq_six]
  split_ifs <;> omega

/-! ### One step -/

theorem balanceBinaryOp_of_left {o ol : Operator} (h : LeftPriority o.op ol.op)
    (ll lr right : Expr α ρ) :
    balanceBinaryOp o (.binaryOp ol ll lr) right = .binaryOp o (.binaryOp ol ll lr) right := by
  have hstay : (decide (binaryOpPriority o.op < binaryOpPriority ol.op) ||
      (binaryOpPriority o.op == binaryOpPriority ol.op && !isRightAssociativeBinaryOp o.op)) =
        true := by
    unfold LeftPriority at h
    simp only [Bool.or_eq_true, decide_eq_true_eq, Bool.and_eq_true, beq_iff_eq,
      Bool.not_eq_true']
    split_ifs at h with hra
    · exact .inl h
    · obtain hlt | heq := lt_or_eq_of_le h
      · exact .inl hlt
      · exact .inr ⟨heq, Bool.eq_false_iff.mpr hra⟩
  rw [balanceBinaryOp]
  exact if_pos hstay

theorem balanceBinaryOp_of_right {o ol : Operator} (h : RightPriority ol.op o.op)
    (ll lr right : Expr α ρ) :
    balanceBinaryOp o (.binaryOp ol ll lr) right =
      .binaryOp ol ll (balanceBinaryOp o lr right) := by
  have hgo : ¬ (decide (binaryOpPriority o.op < binaryOpPriority ol.op) ||
      (binaryOpPriority o.op == binaryOpPriority ol.op && !isRightAssociativeBinaryOp o.op)) =
        true := by
    have hsix := binaryOpPriority_eq_six (p := o.op)
    have hlsix := binaryOpPriority_eq_six (p := ol.op)
    unfold RightPriority at h
    simp only [Bool.or_eq_true, decide_eq_true_eq, Bool.and_eq_true, beq_iff_eq,
      Bool.not_eq_true', Bool.eq_false_iff]
    rintro (hlt | ⟨heq, hra⟩)
    · split_ifs at h <;> omega
    · split_ifs at h with hl
      · exact hra (hsix.mpr (heq.trans (hlsix.mp hl)))
      · omega
  rw [balanceBinaryOp]
  exact if_neg hgo

/-- The operator and its operand come after everything before. -/
theorem inorder_balanceBinaryOp (o : Operator) (left right : Expr α ρ) :
    (balanceBinaryOp o left right).inorder = left.inorder ++ .op o :: right.inorder := by
  fun_induction balanceBinaryOp o left right with
  | case1 => rfl
  | case2 ol ll lr right lp rp h ih => simp [Expr.inorder, ih]
  | case3 => rfl

theorem underMinus_binaryOp {o : Operator} {l r : Expr α ρ} (h : l ≠ .zero) :
    (Expr.binaryOp o l r).underMinus = .binaryOp o l r := by
  cases l with
  | zero => exact absurd rfl h
  | operand | parens | rollup | binaryOp => rfl

theorem rightOk_binaryOp {o : Operator} {l r : Expr α ρ} (h : l ≠ .zero) :
    RightOk p (.binaryOp o l r) ↔ RightPriority p o.op := by
  rw [RightOk, underMinus_binaryOp h]
  exact ⟨fun hr => hr o.op rfl, fun hr q hq => by cases hq; exact hr⟩

/-- A step keeps the tree in order. The operator may stand below `p` on the right when the tree
before the step may. -/
theorem Ordered.balance {right : Expr α ρ} (h : Ordered e) (o : Operator) (hright : Ordered right)
    (hok : ∀ p, RightOk p right) :
    Ordered (balanceBinaryOp o e right) ∧
      ∀ p, RightOk p e → RightPriority p o.op → RightOk p (balanceBinaryOp o e right) := by
  have hleaf : ∀ {e : Expr α ρ}, Ordered e → e.op? = none →
      Ordered (.binaryOp o e right) ∧
        ∀ p, RightOk p e → RightPriority p o.op → RightOk p (.binaryOp o e right) := by
    intro e he hop
    exact ⟨.binaryOp he hright (by simp [hop]) (hok _),
      fun p _ hp => (rightOk_binaryOp he.ne_zero).mpr hp⟩
  induction h with
  | operand a => exact hleaf (.operand a) rfl
  | parens exprs => exact hleaf (.parens exprs) rfl
  | rollup expr suffix => exact hleaf (.rollup expr suffix) rfl
  | @minus x hx hsub ih =>
    by_cases hp : RightPriority .sub o.op
    · rw [unaryMinus, balanceBinaryOp_of_right hp]
      exact ⟨.minus ih.1 (ih.2 _ hsub hp), ih.2⟩
    · have hleft := leftPriority_iff.mpr hp
      have hm : Ordered (unaryMinus x) := .minus hx hsub
      rw [unaryMinus, balanceBinaryOp_of_left hleft]
      exact ⟨.binaryOp hm hright (by rintro q ⟨⟩; exact hleft) (hok _),
        fun p _ hpo => (rightOk_binaryOp hm.ne_zero).mpr hpo⟩
  | @binaryOp ol l r hl hr hll hrr ihl ihr =>
    have hb : Ordered (.binaryOp ol l r) := .binaryOp hl hr hll hrr
    by_cases hp : RightPriority ol.op o.op
    · rw [balanceBinaryOp_of_right hp]
      refine ⟨.binaryOp hl ihr.1 hll (ihr.2 _ hrr hp), fun p hpe _ => ?_⟩
      rw [rightOk_binaryOp hl.ne_zero] at hpe ⊢
      exact hpe
    · have hleft := leftPriority_iff.mpr hp
      rw [balanceBinaryOp_of_left hleft]
      exact ⟨.binaryOp hb hright (by rintro q ⟨⟩; exact hleft) (hok _),
        fun p _ hpo => (rightOk_binaryOp hb.ne_zero).mpr hpo⟩

/-! ### Chains of operands and operators -/

/-- Expressions that are no binary operation. -/
def Expr.IsPrimary : Expr α ρ → Prop
  | .operand _ | .parens _ | .rollup _ _ => True
  | .zero | .binaryOp _ _ _ => False

/-- An operand with the unary minuses before it. -/
structure Operand (α ρ : Type) where
  minuses : ℕ
  primary : Expr α ρ
  isPrimary : primary.IsPrimary

namespace Operand

/-- The expression `-…-x`. -/
def expr (x : Operand α ρ) : Expr α ρ := unaryMinus^[x.minuses] x.primary

/-- Each unary minus reads as `0 -`. -/
def items (x : Operand α ρ) : List (Item α ρ) :=
  (List.replicate x.minuses [.atom .zero, .op BinaryOp.sub.plain]).flatten ++ [.atom x.primary]

/-- The operand with one more unary minus. -/
def neg (x : Operand α ρ) : Operand α ρ := ⟨x.minuses + 1, x.primary, x.isPrimary⟩

theorem expr_neg (x : Operand α ρ) : x.neg.expr = unaryMinus x.expr :=
  Function.iterate_succ_apply' _ _ _

theorem items_neg (x : Operand α ρ) :
    x.neg.items = .atom .zero :: .op BinaryOp.sub.plain :: x.items := by
  simp [items, neg, replicate_succ]

/-- An induction over the unary minuses. -/
theorem induction_neg {motive : Operand α ρ → Prop}
    (primary : ∀ e h, motive ⟨0, e, h⟩) (neg : ∀ x, motive x → motive x.neg) (x : Operand α ρ) :
    motive x := by
  obtain ⟨n, e, h⟩ := x
  induction n with
  | zero => exact primary e h
  | succ n ih => exact neg _ ih

theorem rightOk_expr (p : BinaryOp) (x : Operand α ρ) : RightOk p x.expr := by
  induction x using induction_neg with
  | primary e h =>
    cases e with
    | operand | parens | rollup => exact fun r hr => nomatch hr
    | zero | binaryOp => exact h.elim
  | neg x ih =>
    rw [expr_neg]
    exact ih

theorem ordered_expr (x : Operand α ρ) : Ordered x.expr := by
  induction x using induction_neg with
  | primary e h =>
    cases e with
    | operand a => exact .operand a
    | parens exprs => exact .parens exprs
    | rollup expr suffix => exact .rollup expr suffix
    | zero | binaryOp => exact h.elim
  | neg x ih =>
    rw [expr_neg]
    exact .minus ih (rightOk_expr _ x)

theorem inorder_expr (x : Operand α ρ) : x.expr.inorder = x.items := by
  induction x using induction_neg with
  | primary e h =>
    cases e with
    | operand | parens | rollup => rfl
    | zero | binaryOp => exact h.elim
  | neg x ih =>
    rw [expr_neg, items_neg, ← ih]
    rfl

end Operand

/-- An operand is read back from its items. -/
theorem Operand.items_append_inj {x y : Operand α ρ} {s t : List (Item α ρ)}
    (h : x.items ++ s = y.items ++ t) : x = y ∧ s = t := by
  have hne : ∀ {e : Expr α ρ}, e.IsPrimary → e ≠ .zero := by
    rintro e he rfl
    exact he
  induction x using induction_neg generalizing y with
  | primary e he =>
    induction y using induction_neg with
    | primary e' he' =>
      obtain ⟨heq, hst⟩ := List.cons.inj h
      cases heq
      exact ⟨rfl, hst⟩
    | neg y _ =>
      rw [items_neg] at h
      exact absurd (Item.atom.inj (List.cons.inj h).1) (hne he)
  | neg x ih =>
    rw [items_neg] at h
    induction y using induction_neg with
    | primary e' he' => exact absurd (Item.atom.inj (List.cons.inj h).1).symm (hne he')
    | neg y _ =>
      rw [items_neg] at h
      obtain ⟨rfl, hst⟩ := ih (List.cons.inj (List.cons.inj h).2).2
      exact ⟨rfl, hst⟩

/-- Operands with operators between them. -/
structure Chain (α ρ : Type) where
  first : Operand α ρ
  rest : List (Operator × Operand α ρ)

namespace Chain

/-- The tree that is built from left to right. -/
def tree (c : Chain α ρ) : Expr α ρ :=
  c.rest.foldl (fun e x => balanceBinaryOp x.1 e x.2.expr) c.first.expr

def items (c : Chain α ρ) : List (Item α ρ) :=
  c.first.items ++ c.rest.flatMap fun x => .op x.1 :: x.2.items

/-- The chain with more operators and operands at its end. -/
def append (c : Chain α ρ) (rest : List (Operator × Operand α ρ)) : Chain α ρ :=
  ⟨c.first, c.rest ++ rest⟩

theorem tree_append (c : Chain α ρ) (rest : List (Operator × Operand α ρ)) :
    (c.append rest).tree = rest.foldl (fun e x => balanceBinaryOp x.1 e x.2.expr) c.tree :=
  foldl_append

theorem items_append (c : Chain α ρ) (rest : List (Operator × Operand α ρ)) :
    (c.append rest).items = c.items ++ rest.flatMap fun x => .op x.1 :: x.2.items := by
  simp [items, append]

/-- The tree of a chain is in order. -/
theorem ordered_tree (c : Chain α ρ) : Ordered c.tree := by
  obtain ⟨first, rest⟩ := c
  have hrun : ∀ (rest : List (Operator × Operand α ρ)) (e : Expr α ρ), Ordered e →
      Ordered (rest.foldl (fun e x => balanceBinaryOp x.1 e x.2.expr) e) := by
    intro rest
    induction rest with
    | nil => exact fun e he => he
    | cons x rest ih =>
      exact fun e he => ih _ (he.balance x.1 x.2.ordered_expr
        fun p => x.2.rightOk_expr p).1
  exact hrun rest _ first.ordered_expr

/-- The tree of a chain reads as the chain. -/
theorem inorder_tree (c : Chain α ρ) : c.tree.inorder = c.items := by
  obtain ⟨first, rest⟩ := c
  have hrun : ∀ (rest : List (Operator × Operand α ρ)) (e : Expr α ρ),
      (rest.foldl (fun e x => balanceBinaryOp x.1 e x.2.expr) e).inorder =
        e.inorder ++ rest.flatMap fun x => .op x.1 :: x.2.items := by
    intro rest
    induction rest with
    | nil => simp
    | cons x rest ih =>
      intro e
      rw [foldl_cons, ih, inorder_balanceBinaryOp, x.2.inorder_expr]
      simp
  exact (hrun rest _).trans (by rw [first.inorder_expr]; rfl)

/-- The items of a chain determine it. -/
theorem items_injective {c d : Chain α ρ} (h : c.items = d.items) : c = d := by
  obtain ⟨first, rest⟩ := c
  obtain ⟨first', rest'⟩ := d
  obtain ⟨rfl, hrest⟩ := Operand.items_append_inj h
  have hinj : ∀ {rest rest' : List (Operator × Operand α ρ)},
      (rest.flatMap fun x => Item.op x.1 :: x.2.items) =
        (rest'.flatMap fun x => Item.op x.1 :: x.2.items) → rest = rest' := by
    intro rest
    induction rest with
    | nil =>
      intro rest' h
      cases rest' with
      | nil => rfl
      | cons x rest' => simp at h
    | cons x rest ih =>
      intro rest' h
      cases rest' with
      | nil => simp at h
      | cons y rest' =>
        rw [flatMap_cons, flatMap_cons, cons_append, cons_append] at h
        obtain ⟨hop, htail⟩ := List.cons.inj h
        obtain ⟨hx, hrest⟩ := Operand.items_append_inj htail
        rw [ih hrest, Prod.ext (Item.op.inj hop) hx]
  exact congrArg (Chain.mk first) (hinj hrest)

end Chain

/-! ### Trees in order come from chains -/

theorem rightPriority_of_left {o : BinaryOp} (hp : RightPriority p o) (hleft : LeftPriority o q) :
    RightPriority p q := by
  unfold RightPriority LeftPriority at *
  split_ifs at * <;> omega

theorem RightOk.trans {x : Expr α ρ} (hp : RightPriority p q) (h : RightOk q x) : RightOk p x :=
  fun r hr => rightPriority_trans hp (h r hr)

/-- What may stand below `p` on the right may do so with a left operand. -/
theorem Ordered.rightOk_left {o : BinaryOp} {l : Expr α ρ} (hl : Ordered l)
    (hleft : ∀ q ∈ l.op?, LeftPriority o q) (hp : RightPriority p o) : RightOk p l := by
  cases hl with
  | operand | parens | rollup => exact fun r hr => nomatch hr
  | minus hx hsub => exact hsub.trans (rightPriority_of_left hp (hleft .sub rfl))
  | @binaryOp ol ll lr hll hlr _ _ =>
    exact (rightOk_binaryOp hll.ne_zero).mpr (rightPriority_of_left hp (hleft ol.op rfl))

theorem balanceBinaryOp_of_leftOk {o : Operator} {l : Expr α ρ}
    (h : ∀ q ∈ l.op?, LeftPriority o.op q) (r : Expr α ρ) :
    balanceBinaryOp o l r = .binaryOp o l r := by
  cases l with
  | operand | zero | parens | rollup => rfl
  | binaryOp ol ll lr => exact balanceBinaryOp_of_left (h ol.op rfl) ll lr r

/-- Operators that may stand below an operator on the right stay in its right operand. -/
theorem foldl_balanceBinaryOp_right {ol : Operator} {rest : List (Operator × Operand α ρ)}
    (h : ∀ x ∈ rest, RightPriority ol.op x.1.op) (l e : Expr α ρ) :
    rest.foldl (fun e x => balanceBinaryOp x.1 e x.2.expr) (.binaryOp ol l e) =
      .binaryOp ol l (rest.foldl (fun e x => balanceBinaryOp x.1 e x.2.expr) e) := by
  induction rest generalizing e with
  | nil => rfl
  | cons x rest ih =>
    rw [foldl_cons, balanceBinaryOp_of_right (h x mem_cons_self),
      ih fun y hy => h y (mem_cons_of_mem _ hy), foldl_cons]

/-- A tree in order is the tree of a chain, whose operators may stand where the tree may. -/
theorem Ordered.exists_chain (h : Ordered e) :
    ∃ c : Chain α ρ, c.tree = e ∧ c.items = e.inorder ∧
      ∀ p, RightOk p e → ∀ x ∈ c.rest, RightPriority p x.1.op := by
  induction h with
  | operand a => exact ⟨⟨⟨0, .operand a, trivial⟩, []⟩, rfl, rfl, fun p _ x hx => nomatch hx⟩
  | parens exprs => exact ⟨⟨⟨0, .parens exprs, trivial⟩, []⟩, rfl, rfl, fun p _ x hx => nomatch hx⟩
  | rollup expr suffix =>
    exact ⟨⟨⟨0, .rollup expr suffix, trivial⟩, []⟩, rfl, rfl, fun p _ x hx => nomatch hx⟩
  | @minus x hx hsub ih =>
    obtain ⟨c, rfl, hitems, hops⟩ := ih
    refine ⟨⟨c.first.neg, c.rest⟩, ?_, ?_, hops⟩
    · rw [Chain.tree, Operand.expr_neg]
      exact foldl_balanceBinaryOp_right (hops .sub hsub) _ _
    · rw [Chain.items, Operand.items_neg, unaryMinus, Expr.inorder, ← hitems]
      rfl
  | @binaryOp o l r hl hr hleft hright ihl ihr =>
    obtain ⟨cl, hcl, hlitems, hlops⟩ := ihl
    obtain ⟨cr, hcr, hritems, hrops⟩ := ihr
    refine ⟨cl.append ((o, cr.first) :: cr.rest), ?_, ?_, fun p hp x hx => ?_⟩
    · rw [Chain.tree_append, hcl, foldl_cons, balanceBinaryOp_of_leftOk hleft,
        foldl_balanceBinaryOp_right (hrops o.op hright), ← hcr]
      rfl
    · rw [Chain.items_append, hlitems, Expr.inorder, ← hritems]
      simp [Chain.items]
    · have hpo : RightPriority p o.op := (rightOk_binaryOp hl.ne_zero).mp hp
      obtain hx | hx := mem_append.mp hx
      · exact hlops p (hl.rightOk_left hleft hpo) x hx
      · obtain rfl | hx := mem_cons.mp hx
        · exact hpo
        · exact hrops p (hright.trans hpo) x hx

/-- The tree of a chain is the only tree in order that reads as the chain. -/
theorem Chain.eq_tree {c : Chain α ρ} (h : Ordered e) (hitems : e.inorder = c.items) :
    e = c.tree := by
  obtain ⟨d, rfl, hd, -⟩ := h.exists_chain
  rw [Chain.items_injective (hd.trans hitems)]

end Esmetrics.Metricsql
