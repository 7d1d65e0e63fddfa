import Esmetrics.Metricsql.BinaryOp

/-!
# Parsing of binary operators

Model of `parse_expr` and the functions below it (`esm-metricsql/src/parser.rs`) on the level of
tokens. A number, a function call and every other operand that is read by its own rules is one token
of the model, and so are a modifier with its list of labels and a rollup suffix. Strings and plain
metric names are tokens of their own, because a string takes a following `+` with the string or the
name behind it. Where an operand is expected, the word of an operator is a name. `WITH` expressions
are left out.

The parser reads every sequence of operands and operators, and the result is the only tree in order
that reads as the sequence (`parseInternal_tokens`).
-/

namespace Esmetrics.Metricsql

open List

variable {α ρ : Type}

/-- The operands that the parser reads without reading an expression. -/
inductive Leaf (α : Type) where
  | other (a : α)
  | metric (name : String)
  | string (parts : List StringPart)
  deriving DecidableEq

inductive Token (α ρ : Type) where
  | operand (a : α)
  | part (p : StringPart)
  | op (op : BinaryOp)
  | lparen
  | rparen
  | comma
  | boolModifier
  | modifier (m : ModifierExpr)
  | prefixModifier
  | keepMetricNames
  | rollupSuffix (suffix : ρ)
  deriving DecidableEq

inductive ParseError where
  /-- The modifier `bool` after an operator that is no comparison. -/
  | boolModifier (op : BinaryOp)
  | joinModifier (m : ModifierExpr) (op : BinaryOp)
  | stringExpr
  | parensExpr
  | singleExpr
  | unparsedData
  | outOfFuel
  deriving DecidableEq

def isBinaryOpGroupModifier (s : String) : Bool := s == "on" || s == "ignoring"

def isBinaryOpJoinModifier (s : String) : Bool := s == "group_left" || s == "group_right"

/-- The rest of a string expression after its first token. -/
def parseStringParts (parts : List StringPart) :
    List (Token α ρ) → List StringPart × List (Token α ρ)
  | .op .add :: .part p :: ts => parseStringParts (parts ++ [p]) ts
  | ts => (parts, ts)

def parseStringExpr : List (Token α ρ) → Except ParseError (List StringPart × List (Token α ρ))
  | .part p :: ts => .ok (parseStringParts [p] ts)
  | _ => .error .stringExpr

/-- The part of `parse_expr` that reads `bool`. -/
def parseBoolModifier (op : BinaryOp) :
    List (Token α ρ) → Except ParseError (Bool × List (Token α ρ))
  | .boolModifier :: ts => if isBinaryOpCmp op then .ok (true, ts) else .error (.boolModifier op)
  | ts => .ok (false, ts)

/-- The part of `parse_expr` that reads a join modifier with its prefix. -/
def parseJoinModifier (op : BinaryOp) : List (Token α ρ) →
    Except ParseError (Option ModifierExpr × Option (List StringPart) × List (Token α ρ))
  | .modifier m :: ts =>
    if !isBinaryOpJoinModifier m.op then .ok (none, none, .modifier m :: ts)
    else if isBinaryOpLogicalSet op then .error (.joinModifier m op)
    else
      match ts with
      | .prefixModifier :: ts => do
        let (se, ts) ← parseStringExpr ts
        .ok (some m, some se, ts)
      | ts => .ok (some m, none, ts)
  | ts => .ok (none, none, ts)

/-- The part of `parse_expr` between an operator and its right operand. -/
def parseModifiers (op : BinaryOp) (ts : List (Token α ρ)) :
    Except ParseError (Operator × List (Token α ρ)) := do
  let (boolModifier, ts) ← parseBoolModifier op ts
  match ts with
  | .modifier m :: ts =>
    if !isBinaryOpGroupModifier m.op then
      .ok (⟨op, boolModifier, none, none, none, false⟩, .modifier m :: ts)
    else
      let (joinModifier, joinModifierPrefix, ts) ← parseJoinModifier op ts
      .ok (⟨op, boolModifier, some m, joinModifier, joinModifierPrefix, false⟩, ts)
  | ts => .ok (⟨op, boolModifier, none, none, none, false⟩, ts)

/-- Marks an operation after which `keep_metric_names` stands. -/
def keepMetricNames (o : Operator) : List (Token α ρ) → Operator × List (Token α ρ)
  | .keepMetricNames :: ts => ({ o with keepMetricNames := true }, ts)
  | ts => (o, ts)

/-- The end of `parse_parens_expr`: a single operation in parentheses may be marked behind them. -/
def parensExpr : List (Expr (Leaf α) ρ) → List (Token α ρ) → Expr (Leaf α) ρ × List (Token α ρ)
  | [.binaryOp o l r], ts =>
    let (o, ts) := keepMetricNames o ts
    (.parens [.binaryOp o l r], ts)
  | exprs, ts => (.parens exprs, ts)

/-- The end of `parse_single_expr`. -/
def parseRollupExpr (e : Expr (Leaf α) ρ) :
    List (Token α ρ) → Expr (Leaf α) ρ × List (Token α ρ)
  | .rollupSuffix s :: ts => (.rollup e s, ts)
  | ts => (e, ts)

mutual

def parseExpr : ℕ → List (Token α ρ) → Except ParseError (Expr (Leaf α) ρ × List (Token α ρ))
  | 0, _ => .error .outOfFuel
  | n + 1, ts => do
    let (e, ts) ← parseSingleExpr n ts
    parseBinaryOps n e ts

/-- The loop of `parse_expr`. -/
def parseBinaryOps : ℕ → Expr (Leaf α) ρ → List (Token α ρ) →
    Except ParseError (Expr (Leaf α) ρ × List (Token α ρ))
  | 0, _, _ => .error .outOfFuel
  | n + 1, e, .op op :: ts => do
    let (o, ts) ← parseModifiers op ts
    let (e₂, ts) ← parseSingleExpr n ts
    let (o, ts) := keepMetricNames o ts
    parseBinaryOps n (balanceBinaryOp o e e₂) ts
  | _ + 1, e, ts => .ok (e, ts)

def parseSingleExpr : ℕ → List (Token α ρ) →
    Except ParseError (Expr (Leaf α) ρ × List (Token α ρ))
  | 0, _ => .error .outOfFuel
  | n + 1, ts => do
    let (e, ts) ← parseSingleExprWithoutRollupSuffix n ts
    .ok (parseRollupExpr e ts)

def parseSingleExprWithoutRollupSuffix : ℕ → List (Token α ρ) →
    Except ParseError (Expr (Leaf α) ρ × List (Token α ρ))
  | 0, _ => .error .outOfFuel
  | _ + 1, .operand a :: ts => .ok (.operand (.other a), ts)
  | _ + 1, .part (.quoted s) :: ts =>
    let (parts, ts) := parseStringParts [.quoted s] ts
    .ok (.operand (.string parts), ts)
  | _ + 1, .part (.ident name) :: ts => .ok (.operand (.metric name), ts)
  | n + 1, .lparen :: ts => do
    let (exprs, ts) ← parseParensExpr n [] ts
    .ok (parensExpr exprs ts)
  | n + 1, .op .sub :: ts => do
    let (e, ts) ← parseSingleExpr n ts
    .ok (unaryMinus e, ts)
  | n + 1, .op .add :: ts => parseSingleExpr n ts
  | _ + 1, _ => .error .singleExpr

/-- The loop of `parse_parens_expr`. -/
def parseParensExpr : ℕ → List (Expr (Leaf α) ρ) → List (Token α ρ) →
    Except ParseError (List (Expr (Leaf α) ρ) × List (Token α ρ))
  | 0, _, _ => .error .outOfFuel
  | _ + 1, exprs, .rparen :: ts => .ok (exprs, ts)
  | n + 1, exprs, ts => do
    let (e, ts) ← parseExpr n ts
    match ts with
    | .comma :: ts => parseParensExpr n (exprs ++ [e]) ts
    | .rparen :: ts => .ok (exprs ++ [e], ts)
    | _ => .error .parensExpr

end

/-- Reads a whole query. -/
def parseInternal (ts : List (Token α ρ)) : Except ParseError (Expr (Leaf α) ρ) := do
  let (e, ts) ← parseExpr (2 * ts.length + 1) ts
  match ts with
  | [] => .ok e
  | _ => .error .unparsedData

/-! ### Operators and their tokens -/

/-- The tokens that continue a string expression. -/
def stringTokens (parts : List StringPart) : List (Token α ρ) :=
  parts.flatMap fun p => [.op .add, .part p]

/-- The tokens of a string expression. -/
def stringExprTokens (parts : List StringPart) : List (Token α ρ) := (stringTokens parts).tail

/-- The tokens between the name of an operator and its right operand. -/
def Operator.modifierTokens (o : Operator) : List (Token α ρ) :=
  (if o.boolModifier then [.boolModifier] else []) ++
    ((o.groupModifier.toList.map .modifier) ++
      ((o.joinModifier.toList.map .modifier) ++
        (o.joinModifierPrefix.toList.flatMap fun se => .prefixModifier :: stringExprTokens se)))

/-- The token after the right operand of an operator. -/
def Operator.keepTokens (o : Operator) : List (Token α ρ) :=
  if o.keepMetricNames then [.keepMetricNames] else []

/-- The operators that the parser accepts. -/
structure Operator.Valid (o : Operator) : Prop where
  boolModifier : o.boolModifier = true → isBinaryOpCmp o.op = true
  groupModifier : ∀ m ∈ o.groupModifier, isBinaryOpGroupModifier m.op = true
  joinModifier : ∀ m ∈ o.joinModifier, isBinaryOpJoinModifier m.op = true ∧
    isBinaryOpLogicalSet o.op = false ∧ o.groupModifier.isSome
  joinModifierPrefix : ∀ se ∈ o.joinModifierPrefix, se ≠ [] ∧ o.joinModifier.isSome

/-- Whether an operand may start with a token. -/
def Token.StartsOperand : Token α ρ → Prop
  | .operand _ | .part _ | .lparen => True
  | .op o => o = .sub
  | _ => False

theorem parseStringParts_tokens (parts more : List StringPart) {ts : List (Token α ρ)}
    (h : ∀ p ts', ts ≠ .op .add :: .part p :: ts') :
    parseStringParts parts (stringTokens more ++ ts) = (parts ++ more, ts) := by
  induction more generalizing parts with
  | nil =>
    rw [append_nil]
    exact parseStringParts.eq_2 _ _ h
  | cons p more ih =>
    have hcons : stringTokens (p :: more) ++ ts =
        .op .add :: .part p :: (stringTokens more ++ ts) := rfl
    rw [hcons, parseStringParts, ih, append_assoc]
    rfl

theorem Token.StartsOperand.ne_add {t : Token α ρ} {ts : List (Token α ρ)}
    (h : t.StartsOperand) : ∀ p ts', t :: ts ≠ .op .add :: .part p :: ts' := by
  rintro p ts' heq
  obtain ⟨rfl, -⟩ := List.cons.inj heq
  cases h

theorem parseBoolModifier_tokens {o : Operator} (h : o.Valid) {ts : List (Token α ρ)}
    (hts : ts.head? ≠ some .boolModifier) :
    parseBoolModifier o.op ((if o.boolModifier then [.boolModifier] else []) ++ ts) =
      .ok (o.boolModifier, ts) := by
  cases hb : o.boolModifier with
  | true => exact if_pos (h.boolModifier hb)
  | false =>
    refine parseBoolModifier.eq_2 _ _ fun ts' heq => hts ?_
    rw [show ts = _ from heq]
    rfl

theorem parseStringExpr_tokens {se : List StringPart} (hse : se ≠ []) {t : Token α ρ}
    {ts : List (Token α ρ)} (ht : t.StartsOperand) :
    parseStringExpr (stringExprTokens se ++ t :: ts) = .ok (se, t :: ts) := by
  cases se with
  | nil => exact absurd rfl hse
  | cons p se =>
    calc parseStringExpr (.part p :: (stringTokens se ++ t :: ts))
        = .ok (parseStringParts [p] (stringTokens se ++ t :: ts)) := rfl
      _ = .ok (p :: se, t :: ts) := by rw [parseStringParts_tokens _ _ ht.ne_add]; rfl

theorem parseJoinModifier_tokens {o : Operator} (h : o.Valid) {t : Token α ρ}
    {ts : List (Token α ρ)} (ht : t.StartsOperand) :
    parseJoinModifier o.op (((o.joinModifier.toList.map .modifier) ++
        (o.joinModifierPrefix.toList.flatMap fun se => .prefixModifier :: stringExprTokens se)) ++
          t :: ts) =
      .ok (o.joinModifier, o.joinModifierPrefix, t :: ts) := by
  cases hj : o.joinModifier with
  | none =>
    have hp : o.joinModifierPrefix = none := by
      cases hp : o.joinModifierPrefix with
      | none => rfl
      | some se => simpa [hj] using (h.joinModifierPrefix se hp).2
    rw [hp]
    cases t with
    | modifier => cases ht
    | operand | part | op | lparen | rparen | comma | boolModifier | prefixModifier
      | keepMetricNames | rollupSuffix => rfl
  | some m =>
    obtain ⟨hjoin, hset, -⟩ := h.joinModifier m hj
    cases hp : o.joinModifierPrefix with
    | none =>
      simp only [Option.toList_some, map_cons, map_nil, Option.toList_none,
        flatMap_nil, append_nil, cons_append, nil_append, parseJoinModifier,
        hjoin, hset, Bool.not_true, Bool.false_eq_true, if_false]
      cases t with
      | prefixModifier => cases ht
      | operand | part | op | lparen | rparen | comma | boolModifier | modifier
        | keepMetricNames | rollupSuffix => rfl
    | some se =>
      have hread : parseStringExpr (stringExprTokens se ++ t :: ts) = .ok (se, t :: ts) :=
        parseStringExpr_tokens (h.joinModifierPrefix se hp).1 ht
      simp only [Option.toList_some, map_cons, map_nil, flatMap_cons,
        flatMap_nil, append_nil, cons_append, nil_append, parseJoinModifier,
        hjoin, hset, Bool.not_true, Bool.false_eq_true, if_false, hread]
      rfl

/-- The modifiers of an operator are read back. -/
theorem parseModifiers_tokens {o : Operator} (h : o.Valid) {t : Token α ρ}
    {ts : List (Token α ρ)} (ht : t.StartsOperand) :
    parseModifiers o.op (o.modifierTokens ++ t :: ts) =
      .ok ({ o with keepMetricNames := false }, t :: ts) := by
  have hjoin := @parseJoinModifier_tokens α ρ o h t ts ht
  have hnone : o.groupModifier = none → o.joinModifier = none ∧ o.joinModifierPrefix = none := by
    intro hg
    have hj : o.joinModifier = none := by
      cases hj : o.joinModifier with
      | none => rfl
      | some m => simpa [hg] using (h.joinModifier m hj).2.2
    refine ⟨hj, ?_⟩
    cases hp : o.joinModifierPrefix with
    | none => rfl
    | some se => simpa [hj] using (h.joinModifierPrefix se hp).2
  rw [Operator.modifierTokens, parseModifiers, append_assoc,
    parseBoolModifier_tokens h ?_]
  · cases hg : o.groupModifier with
    | none =>
      obtain ⟨hj, hp⟩ := hnone hg
      rw [hj, hp]
      cases t with
      | modifier => cases ht
      | operand | part | op | lparen | rparen | comma | boolModifier | prefixModifier
        | keepMetricNames | rollupSuffix =>
        obtain ⟨op, b, g, j, jp, k⟩ := o
        cases hg
        cases hj
        cases hp
        rfl
    | some m =>
      have hm := h.groupModifier m hg
      simp only [Option.toList_some, map_cons, map_nil, cons_append,
        nil_append]
      change (if !isBinaryOpGroupModifier m.op then _ else _) = _
      rw [hm, hjoin]
      obtain ⟨op, b, g, j, jp, k⟩ := o
      cases hg
      rfl
  · cases hg : o.groupModifier with
    | some m => exact fun heq => nomatch heq
    | none =>
      obtain ⟨hj, hp⟩ := hnone hg
      rw [hj, hp]
      rintro heq
      obtain rfl : t = .boolModifier := Option.some.inj heq
      cases ht

/-! ### Sequences of operands and operators -/

/-- No rollup suffix comes next. -/
def NotRollup (ts : List (Token α ρ)) : Prop := ∀ s, ts.head? ≠ some (.rollupSuffix s)

/-- The tokens of an operand without unary minuses and rollup suffix. The parser reads them as one
expression, unless what follows belongs to the operand as well. -/
structure Primary (α ρ : Type) where
  first : Token α ρ
  more : List (Token α ρ)
  expr : Expr (Leaf α) ρ
  startsOperand : first.StartsOperand
  isPrimary : expr.IsPrimary
  /-- What may follow the operand. -/
  follow : List (Token α ρ) → Prop
  reads : ∀ n ts, 2 * more.length < n → follow ts →
    parseSingleExprWithoutRollupSuffix n (first :: (more ++ ts)) = .ok (expr, ts)

/-- An operand with its unary minuses and its rollup suffix. -/
structure Term (α ρ : Type) where
  minuses : ℕ
  primary : Primary α ρ
  suffix : Option ρ

namespace Term

/-- The operand without the unary minuses. -/
def unsigned (x : Term α ρ) : Expr (Leaf α) ρ :=
  match x.suffix with
  | none => x.primary.expr
  | some s => .rollup x.primary.expr s

theorem isPrimary_unsigned (x : Term α ρ) : x.unsigned.IsPrimary := by
  obtain ⟨n, p, suffix⟩ := x
  cases suffix with
  | none => exact p.isPrimary
  | some s => trivial

/-- The operand of the tree. -/
def operand (x : Term α ρ) : Operand (Leaf α) ρ := ⟨x.minuses, x.unsigned, x.isPrimary_unsigned⟩

def suffixTokens (x : Term α ρ) : List (Token α ρ) := x.suffix.toList.map .rollupSuffix

def tokens (x : Term α ρ) : List (Token α ρ) :=
  List.replicate x.minuses (.op .sub) ++ x.primary.first :: (x.primary.more ++ x.suffixTokens)

/-- What may follow the operand. -/
def Follow (x : Term α ρ) (ts : List (Token α ρ)) : Prop :=
  x.primary.follow (x.suffixTokens ++ ts) ∧ NotRollup ts

theorem exists_tokens_eq_cons (x : Term α ρ) : ∃ t ts, x.tokens = t :: ts ∧ t.StartsOperand := by
  obtain ⟨n, p, suffix⟩ := x
  cases n with
  | zero => exact ⟨p.first, _, rfl, p.startsOperand⟩
  | succ n => exact ⟨.op .sub, _, rfl, rfl⟩

end Term

theorem parseRollupExpr_of_notRollup (e : Expr (Leaf α) ρ) {ts : List (Token α ρ)}
    (h : NotRollup ts) : parseRollupExpr e ts = (e, ts) := by
  refine parseRollupExpr.eq_2 _ _ fun s ts' heq => h s ?_
  rw [show ts = _ from heq]
  rfl

/-- A term is read as its operand. -/
theorem Term.parseSingleExpr_tokens (x : Term α ρ) {n : ℕ} {ts : List (Token α ρ)}
    (hn : 2 * x.tokens.length ≤ n) (hts : x.Follow ts) :
    parseSingleExpr n (x.tokens ++ ts) = .ok (x.operand.expr, ts) := by
  obtain ⟨k, p, suffix⟩ := x
  induction k generalizing n with
  | zero =>
    have hlen : (Term.tokens ⟨0, p, suffix⟩).length =
        p.more.length + (Term.suffixTokens ⟨0, p, suffix⟩).length + 1 := by
      simp [tokens]
    obtain ⟨n, rfl⟩ : ∃ n', n = n' + 1 := ⟨n - 1, by omega⟩
    have hread := p.reads n _ (by omega) hts.1
    have htokens : Term.tokens ⟨0, p, suffix⟩ ++ ts =
        p.first :: (p.more ++ (Term.suffixTokens ⟨0, p, suffix⟩ ++ ts)) := by
      simp [tokens]
    rw [htokens, parseSingleExpr, hread]
    cases suffix with
    | none => exact congrArg Except.ok (parseRollupExpr_of_notRollup _ hts.2)
    | some s => rfl
  | succ k ih =>
    have hlen : (Term.tokens ⟨k + 1, p, suffix⟩).length =
        (Term.tokens ⟨k, p, suffix⟩).length + 1 := by
      simp [tokens, suffixTokens, Nat.add_right_comm]
    obtain ⟨n, rfl⟩ : ∃ n', n = n' + 2 := ⟨n - 2, by omega⟩
    have hread := ih (n := n) (by omega) hts
    have hinner : parseSingleExprWithoutRollupSuffix (n + 1)
        (.op .sub :: (Term.tokens ⟨k, p, suffix⟩ ++ ts)) =
          .ok (unaryMinus (Term.operand ⟨k, p, suffix⟩).expr, ts) := by
      rw [parseSingleExprWithoutRollupSuffix, hread]
      rfl
    have htokens : Term.tokens ⟨k + 1, p, suffix⟩ ++ ts =
        .op .sub :: (Term.tokens ⟨k, p, suffix⟩ ++ ts) := rfl
    rw [htokens, parseSingleExpr, hinner]
    change Except.ok (parseRollupExpr _ ts) = _
    rw [parseRollupExpr_of_notRollup _ hts.2]
    exact congrArg (fun e => Except.ok (e, ts))
      (Operand.expr_neg (Term.operand ⟨k, p, suffix⟩)).symm

/-- The tokens of operators and their right operands. -/
def restTokens (rest : List (Operator × Term α ρ)) : List (Token α ρ) :=
  rest.flatMap fun x => .op x.1.op :: (x.1.modifierTokens ++ (x.2.tokens ++ x.1.keepTokens))

/-- The operators are valid, and every operand ends where the next operator starts. -/
def RestSeparated : List (Operator × Term α ρ) → List (Token α ρ) → Prop
  | [], _ => True
  | (o, x) :: rest, ts =>
    o.Valid ∧ x.Follow (o.keepTokens ++ (restTokens rest ++ ts)) ∧
      RestSeparated rest ts

/-- What comes after a whole expression. -/
def Closing (ts : List (Token α ρ)) : Prop :=
  ∀ t ∈ ts.head?, t = .comma ∨ t = .rparen

/-- A sequence of operands and operators. -/
structure Sequence (α ρ : Type) where
  first : Term α ρ
  rest : List (Operator × Term α ρ)
  separated : ∀ ts, Closing ts → first.Follow (restTokens rest ++ ts) ∧ RestSeparated rest ts

namespace Sequence

def tokens (s : Sequence α ρ) : List (Token α ρ) := s.first.tokens ++ restTokens s.rest

/-- The operands and operators, with the parenthesised expressions read. -/
def chain (s : Sequence α ρ) : Chain (Leaf α) ρ :=
  ⟨s.first.operand, s.rest.map fun x => (x.1, x.2.operand)⟩

end Sequence

/-- What follows an operand is an operator or closes the expression. -/
theorem head?_restTokens {rest : List (Operator × Term α ρ)} {ts : List (Token α ρ)}
    (hts : Closing ts) : (restTokens rest ++ ts).head? ≠ some .keepMetricNames := by
  cases rest with
  | nil =>
    intro heq
    obtain h | h := hts _ heq
    · cases h
    · cases h
  | cons x rest => exact fun heq => nomatch heq

theorem keepMetricNames_tokens (o : Operator) {ts : List (Token α ρ)}
    (h : ts.head? ≠ some .keepMetricNames) :
    keepMetricNames { o with keepMetricNames := false } (o.keepTokens ++ ts) = (o, ts) := by
  obtain ⟨op, b, g, j, jp, k⟩ := o
  cases k with
  | true => rfl
  | false =>
    refine keepMetricNames.eq_2 _ _ fun ts' heq => h ?_
    rw [show ts = _ from heq]
    rfl

theorem parseBinaryOps_of_closing {n : ℕ} (hn : 0 < n) (e : Expr (Leaf α) ρ)
    {ts : List (Token α ρ)} (h : Closing ts) : parseBinaryOps n e ts = .ok (e, ts) := by
  obtain ⟨n, rfl⟩ : ∃ n', n = n' + 1 := ⟨n - 1, by omega⟩
  refine parseBinaryOps.eq_3 _ _ _ fun o ts' heq => ?_
  obtain h | h := h (.op o) (by rw [show ts = _ from heq]; rfl)
  · cases h
  · cases h

/-- The loop puts every operator into the tree. -/
theorem parseBinaryOps_tokens {rest : List (Operator × Term α ρ)} {n : ℕ}
    {ts : List (Token α ρ)} (hn : 2 * (restTokens rest).length < n) (hrest : RestSeparated rest ts)
    (hts : Closing ts) (e : Expr (Leaf α) ρ) :
    parseBinaryOps n e (restTokens rest ++ ts) =
      .ok ((rest.map fun x => (x.1, x.2.operand)).foldl
        (fun e x => balanceBinaryOp x.1 e x.2.expr) e, ts) := by
  induction rest generalizing n e with
  | nil => exact parseBinaryOps_of_closing (by omega) e hts
  | cons x rest ih =>
    obtain ⟨o, x⟩ := x
    obtain ⟨hvalid, hfollow, hrest⟩ := hrest
    have hcons : restTokens ((o, x) :: rest) = .op o.op ::
        (o.modifierTokens ++ (x.tokens ++ (o.keepTokens ++ restTokens rest))) := by
      simp [restTokens]
    have hlen := congrArg List.length hcons
    simp only [length_cons, length_append] at hlen
    obtain ⟨n, rfl⟩ : ∃ n', n = n' + 1 := ⟨n - 1, by omega⟩
    obtain ⟨t, ts', htokens, hstart⟩ := x.exists_tokens_eq_cons
    -- The modifiers, the operand and the mark behind it are read in turn.
    have hmods := @parseModifiers_tokens α ρ o hvalid t
      (ts' ++ (o.keepTokens ++ (restTokens rest ++ ts))) hstart
    rw [← cons_append, ← htokens] at hmods
    have hterm := x.parseSingleExpr_tokens (n := n) (by omega) hfollow
    have hmark := keepMetricNames_tokens o (@head?_restTokens α ρ rest ts hts)
    rw [hcons]
    simp only [cons_append, append_assoc]
    rw [parseBinaryOps, hmods]
    change (parseSingleExpr n (x.tokens ++ _) >>= _) = _
    rw [hterm]
    change parseBinaryOps n (balanceBinaryOp (keepMetricNames _ _).1 e x.operand.expr)
      (keepMetricNames _ _).2 = _
    rw [hmark, ih (by omega) hrest]
    rfl

/-- A sequence is read as the tree of its chain. -/
theorem Sequence.parseExpr_tokens (s : Sequence α ρ) {n : ℕ} {ts : List (Token α ρ)}
    (hn : 2 * s.tokens.length < n) (hts : Closing ts) :
    parseExpr n (s.tokens ++ ts) = .ok (s.chain.tree, ts) := by
  obtain ⟨hfirst, hrest⟩ := s.separated ts hts
  obtain ⟨n, rfl⟩ : ∃ n', n = n' + 1 := ⟨n - 1, by omega⟩
  obtain ⟨t, ts', htokens, -⟩ := s.first.exists_tokens_eq_cons
  have hpos : 0 < s.first.tokens.length := by simp [htokens]
  rw [tokens, length_append] at hn
  rw [tokens, append_assoc, parseExpr,
    s.first.parseSingleExpr_tokens (by omega) hfirst]
  exact parseBinaryOps_tokens (by omega) hrest hts _

/-! ### Operands -/

namespace Primary

/-- An operand that is read by its own rules. -/
def other (a : α) : Primary α ρ where
  first := .operand a
  more := []
  expr := .operand (.other a)
  startsOperand := trivial
  isPrimary := trivial
  follow := fun _ => True
  reads := by
    rintro (_ | n) ts hn -
    · exact absurd hn (Nat.not_lt_zero _)
    · rfl

def metric (name : String) : Primary α ρ where
  first := .part (.ident name)
  more := []
  expr := .operand (.metric name)
  startsOperand := trivial
  isPrimary := trivial
  follow := fun _ => True
  reads := by
    rintro (_ | n) ts hn -
    · exact absurd hn (Nat.not_lt_zero _)
    · rfl

/-- A string with the strings and names that are added to it. -/
def string (s : String) (parts : List StringPart) : Primary α ρ where
  first := .part (.quoted s)
  more := stringTokens parts
  expr := .operand (.string (.quoted s :: parts))
  startsOperand := trivial
  isPrimary := trivial
  follow := fun ts => ∀ p ts', ts ≠ .op .add :: .part p :: ts'
  reads := by
    rintro (_ | n) ts hn hts
    · exact absurd hn (Nat.not_lt_zero _)
    · rw [parseSingleExprWithoutRollupSuffix, parseStringParts_tokens _ _ hts]
      rfl

end Primary

/-- The tokens of expressions in parentheses after the opening one. -/
def parensTokens : List (Sequence α ρ) → List (Token α ρ)
  | [] => [.rparen]
  | [s] => s.tokens ++ [.rparen]
  | s :: ss => s.tokens ++ .comma :: parensTokens ss

theorem parseParensExpr_tokens (ss : List (Sequence α ρ)) (exprs : List (Expr (Leaf α) ρ)) {n : ℕ}
    (hn : 2 * (parensTokens ss).length ≤ n) (ts : List (Token α ρ)) :
    parseParensExpr n exprs (parensTokens ss ++ ts) =
      .ok (exprs ++ ss.map fun s => s.chain.tree, ts) := by
  -- One step of the loop.
  have hstep : ∀ (s : Sequence α ρ) (t : Token α ρ) (ts : List (Token α ρ)) (n : ℕ)
      (exprs : List (Expr (Leaf α) ρ)), 2 * s.tokens.length < n → t = .comma ∨ t = .rparen →
      parseParensExpr (n + 1) exprs (s.tokens ++ t :: ts) =
        match t :: ts with
        | .comma :: ts => parseParensExpr n (exprs ++ [s.chain.tree]) ts
        | .rparen :: ts => .ok (exprs ++ [s.chain.tree], ts)
        | _ => .error .parensExpr := by
    intro s t ts n exprs hn ht
    obtain ⟨t', ts', htokens, hstart⟩ := s.first.exists_tokens_eq_cons
    have hread := @Sequence.parseExpr_tokens α ρ s n (t :: ts) hn fun t' ht' => by
      obtain rfl := Option.some.inj ht'
      exact ht
    rw [parseParensExpr.eq_3 _ _ _ ?_, hread]
    · rfl
    · intro ts'' heq
      rw [Sequence.tokens, htokens] at heq
      obtain ⟨rfl, -⟩ := List.cons.inj heq
      cases hstart
  induction ss generalizing exprs n with
  | nil =>
    obtain ⟨n, rfl⟩ : ∃ n', n = n' + 1 := ⟨n - 1, by simp [parensTokens] at hn; omega⟩
    rw [map_nil, append_nil]
    rfl
  | cons s ss ih =>
    cases ss with
    | nil =>
      simp only [parensTokens, length_append, length_cons, length_nil] at hn
      obtain ⟨n, rfl⟩ : ∃ n', n = n' + 1 := ⟨n - 1, by omega⟩
      rw [parensTokens, append_assoc]
      exact hstep s .rparen ts n exprs (by omega) (.inr rfl)
    | cons s' ss =>
      have htokens : parensTokens (s :: s' :: ss) =
          s.tokens ++ .comma :: parensTokens (s' :: ss) := rfl
      rw [htokens, length_append, length_cons] at hn
      obtain ⟨n, rfl⟩ : ∃ n', n = n' + 1 := ⟨n - 1, by omega⟩
      rw [htokens, append_assoc, cons_append,
        hstep s .comma _ n exprs (by omega) (.inl rfl)]
      exact (ih _ (by omega)).trans (by rw [append_assoc]; rfl)

/-- Expressions in parentheses. Behind a single operation, `keep_metric_names` marks it. -/
def Primary.parens (ss : List (Sequence α ρ)) : Primary α ρ where
  first := .lparen
  more := parensTokens ss
  expr := .parens (ss.map fun s => s.chain.tree)
  startsOperand := trivial
  isPrimary := trivial
  follow := fun ts => parensExpr (ss.map fun s => s.chain.tree) ts =
    (.parens (ss.map fun s => s.chain.tree), ts)
  reads := by
    rintro (_ | n) ts hn hts
    · exact absurd hn (Nat.not_lt_zero _)
    · rw [parseSingleExprWithoutRollupSuffix, parseParensExpr_tokens ss [] (by omega), nil_append]
      exact congrArg Except.ok hts

/-- The parser reads a sequence of operands and operators as the only tree in order that reads as
the sequence. -/
theorem parseInternal_tokens (s : Sequence α ρ) :
    ∃ e, parseInternal s.tokens = .ok e ∧ Ordered e ∧ e.inorder = s.chain.items ∧
      ∀ e', Ordered e' → e'.inorder = s.chain.items → e' = e := by
  refine ⟨s.chain.tree, ?_, s.chain.ordered_tree, s.chain.inorder_tree,
    fun e' he' hitems => Chain.eq_tree he' hitems⟩
  have hread := @Sequence.parseExpr_tokens α ρ s _ [] (Nat.lt_succ_self _) (by simp [Closing])
  rw [append_nil] at hread
  rw [parseInternal, hread]
  rfl

/-! ### Unary minuses -/

/-- The priorities without regard to unary minuses: a unary minus is an operation like any other. -/
def StrictlyOrdered : Expr α ρ → Prop
  | .binaryOp o l r =>
    (∀ q ∈ l.op?, LeftPriority o.op q) ∧ (∀ q ∈ r.op?, RightPriority o.op q) ∧
      StrictlyOrdered l ∧ StrictlyOrdered r
  | _ => True

/-- The expression `a * -b` has the right operand `0 - b`. -/
theorem parseInternal_mul_unaryMinus :
    ∃ e : Expr (Leaf ℕ) ℕ,
      parseInternal [.operand 0, .op .mul, .op .sub, .operand 1] = .ok e ∧ ¬ StrictlyOrdered e := by
  refine ⟨.binaryOp BinaryOp.mul.plain (.operand (.other 0)) (unaryMinus (.operand (.other 1))),
    rfl, ?_⟩
  rintro ⟨-, hright, -⟩
  exact absurd (hright .sub rfl) (by unfold RightPriority; decide)

end Esmetrics.Metricsql
