import Esmetrics.Protoparser.Prometheus

/-!
# Comments after a sample

A comment or an exemplar after a sample, `unmarshal_single_row` and `skip_trailing_comment` of
`esm-protoparser/src/prometheus.rs`. The comment is cut off after the label list was found, and the
label list is looked for in the whole line: the opening brace at its start, and in each pass of
`unmarshal_tags` the next quote.

So a brace in the comment of a line without labels is taken for that of the label list, and a quote
in the comment is taken for that of a value when the list ends at the start of a pass
(`ClosesAtStart`): in an empty list, after a trailing comma, and after the metric name in quotes.
Everywhere else a pass reads the same with text after the line (`unmarshalTagPass_append`), and
`comment_ignored_iff` is that these two are the only cases.
-/

namespace Esmetrics.Protoparser.Prometheus

open List

/-- The text of a comment, from the blank before it. -/
def trailingComment (c : Bytes) : Bytes := ascii " # " ++ c

/-- The passes of `unmarshal_tags` come to one that starts at the closing brace. -/
inductive ClosesAtStart : Bytes → Bytes → Prop
  | close {metric s rest : Bytes} : unmarshalTagStart true metric s = .ok (.close rest) →
    ClosesAtStart metric s
  | pass {metric s : Bytes} {pass : TagPass} : unmarshalTagPass true metric s = .ok pass →
    pass.closed = false →
    ClosesAtStart pass.metric pass.rest → ClosesAtStart metric s

/-- The label list of a line ends at the start of a pass. -/
def LabelsCloseAtStart (line : Bytes) : Prop :=
  ∃ n, (skipLeadingWhitespace line).idxOf? '{'.toUInt8 = some n ∧
    ClosesAtStart (skipTrailingWhitespace ((skipLeadingWhitespace line).take n))
      ((skipLeadingWhitespace line).drop (n + 1))

/-! ### Passes -/

/-- The same with text after it. -/
def TagStart.append (t : Bytes) : TagStart → TagStart
  | .close rest => .close (rest ++ t)
  | .metric name rest => .metric name (rest ++ t)
  | .key k rest => .key k (rest ++ t)

def TagPass.append (t : Bytes) (pass : TagPass) : TagPass := { pass with rest := pass.rest ++ t }

section Append

variable {s t : Bytes}

theorem drop_append_of_lt {n : ℕ} (h : n < s.length) (t : Bytes) :
    (s ++ t).drop (n + 1) = s.drop (n + 1) ++ t :=
  drop_append_of_le_length h

theorem lt_of_idxOf? {c : UInt8} {n : ℕ} (h : s.idxOf? c = some n) : n < s.length := by
  obtain ⟨p, r, rfl, -, rfl⟩ := exists_append_of_idxOf? h
  rw [length_append, length_cons]
  omega

theorem extractQuoted_append {value rest : Bytes} (h : extractQuoted s true = .ok (value, rest))
    (t : Bytes) : extractQuoted (s ++ t) true = .ok (value, rest ++ t) := by
  rw [extractQuoted] at h
  split at h
  · cases h
  · next hquote =>
    obtain ⟨s, rfl⟩ : ∃ s', s = quote :: s' := by
      cases s with
      | nil => cases not_not.mp hquote
      | cons b s => exact ⟨s, congrArg (· :: s) (Option.some.inj (not_not.mp hquote))⟩
    rw [if_neg (by decide), findClosingQuote, head?_cons, if_pos rfl, tail_cons] at h
    rw [extractQuoted, cons_append, head?_cons, if_neg (not_not.mpr rfl), if_neg (by decide),
      findClosingQuote, head?_cons, if_pos rfl, tail_cons]
    cases hfind : findUnescaped backslash quote s with
    | none =>
      rw [hfind] at h
      cases h
    | some n =>
      have hlt := findUnescaped_lt (by decide) hfind
      rw [hfind, Option.map_some] at h
      rw [findUnescaped_append_of_some (by decide) hfind, Option.map_some]
      obtain ⟨rfl, rfl⟩ := Prod.mk.inj (Except.ok.inj h)
      have hle : 1 + n + 1 ≤ (quote :: s).length := by
        rw [length_cons]
        omega
      have htake : (quote :: s ++ t).take (1 + n) = (quote :: s).take (1 + n) :=
        take_append_of_le_length (by omega)
      have hdrop : (quote :: s ++ t).drop (1 + n + 1) = (quote :: s).drop (1 + n + 1) ++ t :=
        drop_append_of_le_length hle
      rw [cons_append] at htake hdrop
      dsimp only
      rw [htake, hdrop]

/-- What is left of a line that goes on after the start of a pass. -/
def TagStart.Continues (t : Bytes) : TagStart → Prop
  | .close _ => quote ∉ t
  | .metric _ rest => rest ≠ [','.toUInt8]
  | .key _ rest => rest ≠ []

theorem unmarshalQuotedKey_append {metric rawKey rest : Bytes} {start : TagStart}
    (h : unmarshalQuotedKey metric rawKey rest = .ok start) (hcont : start.Continues t) :
    unmarshalQuotedKey metric rawKey (rest ++ t) = .ok (start.append t) := by
  rw [unmarshalQuotedKey] at h
  cases hskip : skipLeadingWhitespace rest with
  | nil =>
    rw [hskip] at h
    obtain rfl := Except.ok.inj h
    exact absurd rfl hcont
  | cons c rest' =>
    have hne : skipLeadingWhitespace rest ≠ [] := by simp [hskip]
    have happend := skipLeadingWhitespace_append hne t
    rw [hskip, cons_append] at happend
    rw [hskip] at h
    rw [unmarshalQuotedKey, happend]
    dsimp only at h ⊢
    split at h
    · next hmetric =>
      rw [if_pos hmetric]
      split at h
      · cases h
      · next hempty =>
        rw [if_neg hempty]
        obtain rfl := Except.ok.inj h
        rw [TagStart.append]
        cases rest' with
        | nil =>
          have hc : c ≠ ','.toUInt8 := by
            rintro rfl
            exact hcont rfl
          rw [if_neg fun hcomma => hc hcomma.2, if_neg fun hcomma => hc hcomma.2, cons_append]
        | cons b rest' =>
          simp only [cons_append, isEmpty_cons, Bool.false_eq_true, not_false_eq_true, true_and]
          split
          · rfl
          · rfl
    · next hmetric =>
      rw [if_neg hmetric]
      split at h
      · cases h
      · next heq =>
        rw [if_neg heq]
        obtain rfl := Except.ok.inj h
        rw [skipLeadingWhitespace_append hcont]
        rfl

/-- The text before a quote is a key. -/
theorem unmarshalTagStart_of_succ (metric : Bytes) {n : ℕ}
    (h : (skipLeadingWhitespace s).idxOf? quote = some (n + 1)) :
    unmarshalTagStart true metric s =
      let keyPart := skipTrailingWhitespace ((skipLeadingWhitespace s).take (n + 1))
      if keyPart.getLast? ≠ some '='.toUInt8 then
        .error [.text "missing value for unquoted tag ", .debug (skipLeadingWhitespace s)]
      else .ok (.key (skipTrailingWhitespace keyPart.dropLast)
        ((skipLeadingWhitespace s).drop (n + 1))) := by
  rw [unmarshalTagStart]
  dsimp only
  rw [h]
  rfl

theorem unmarshalTagStart_append {metric : Bytes} {start : TagStart}
    (h : unmarshalTagStart true metric s = .ok start) (hcont : start.Continues t) :
    unmarshalTagStart true metric (s ++ t) = .ok (start.append t) := by
  have hne : skipLeadingWhitespace s ≠ [] := by
    intro hnil
    rw [unmarshalTagStart, hnil] at h
    cases h
  rw [unmarshalTagStart] at h
  rw [unmarshalTagStart, skipLeadingWhitespace_append hne]
  generalize skipLeadingWhitespace s = s at h hne
  dsimp only at h ⊢
  split at h
  · next hnone =>
    split at h
    · next hclose =>
      obtain rfl := Except.ok.inj h
      have hnone' : (s ++ t).idxOf? quote = none := by
        rw [idxOf?_eq_none_iff] at hnone ⊢
        exact fun hmem => (mem_append.mp hmem).elim hnone hcont
      have hclose' : (s ++ t).head? = some '}'.toUInt8 := by
        rw [head?_append_of_ne_nil _ hne, hclose]
      rw [hnone']
      dsimp only
      rw [if_pos hclose', tail_append_of_ne_nil hne]
      rfl
    · cases h
  · next hzero =>
    obtain ⟨⟨rawKey, rest⟩, hquoted, h⟩ := exists_of_bind_eq_ok h
    rw [idxOf?_append_of_some hzero]
    change (extractQuoted (s ++ t) true >>= fun p => unmarshalQuotedKey metric p.1 p.2) = _
    rw [extractQuoted_append hquoted]
    exact unmarshalQuotedKey_append h hcont
  · next n hn hsome =>
    have hlt := lt_of_idxOf? hsome
    obtain ⟨n, rfl⟩ := Nat.exists_eq_succ_of_ne_zero hn
    rw [idxOf?_append_of_some hsome]
    have htake : (s ++ t).take n.succ = s.take n.succ := take_append_of_le_length hlt.le
    have hdrop : (s ++ t).drop n.succ = s.drop n.succ ++ t := drop_append_of_le_length hlt.le
    change (if (skipTrailingWhitespace ((s ++ t).take n.succ)).getLast? ≠ _ then _ else
      Except.ok (TagStart.key _ ((s ++ t).drop n.succ))) = _
    rw [htake, hdrop]
    split at h
    · cases h
    · next hequals =>
      obtain rfl := Except.ok.inj h
      rw [if_neg hequals]
      rfl

theorem unmarshalTagEnd_append {metric key value rest : Bytes} {pass : TagPass}
    (h : unmarshalTagEnd metric key value rest = .ok pass) (t : Bytes) :
    unmarshalTagEnd metric key value (rest ++ t) = .ok (pass.append t) := by
  rw [unmarshalTagEnd] at h
  cases hskip : skipLeadingWhitespace rest with
  | nil =>
    rw [hskip] at h
    cases h
  | cons c rest' =>
    have hne : skipLeadingWhitespace rest ≠ [] := by simp [hskip]
    rw [hskip] at h
    rw [unmarshalTagEnd, skipLeadingWhitespace_append hne, hskip, cons_append]
    dsimp only at h ⊢
    split at h
    · next hclose =>
      obtain rfl := Except.ok.inj h
      rw [if_pos hclose]
      rfl
    · next hclose =>
      rw [if_neg hclose]
      split at h
      · cases h
      · next hcomma =>
        obtain rfl := Except.ok.inj h
        rw [if_neg hcomma]
        rfl

/-- A pass reads the same with text after the line, unless it starts at the closing brace and there
is a quote in the text. -/
theorem unmarshalTagPass_append {metric : Bytes} {pass : TagPass}
    (h : unmarshalTagPass true metric s = .ok pass)
    (hclose : ∀ rest, unmarshalTagStart true metric s = .ok (.close rest) → quote ∉ t)
    (hcomma : pass.closed = false → pass.rest ≠ [','.toUInt8]) :
    unmarshalTagPass true metric (s ++ t) = .ok (pass.append t) := by
  obtain ⟨start, hstart, h⟩ := exists_of_bind_eq_ok h
  rw [unmarshalTagPass]
  cases start with
  | close rest =>
    obtain rfl := Except.ok.inj h
    rw [unmarshalTagStart_append hstart (hclose rest hstart)]
    rfl
  | metric name rest =>
    obtain rfl := Except.ok.inj h
    rw [unmarshalTagStart_append hstart (hcomma rfl)]
    rfl
  | key key rest =>
    obtain ⟨⟨value, rest'⟩, hquoted, h⟩ := exists_of_bind_eq_ok h
    have hrest : rest ≠ [] := by
      rintro rfl
      cases hquoted
    rw [unmarshalTagStart_append hstart hrest]
    change (extractQuoted (rest ++ t) true >>= fun p => unmarshalTagEnd metric key p.1 p.2) = _
    rw [extractQuoted_append hquoted]
    exact unmarshalTagEnd_append h t

/-- A comma alone is no list. -/
theorem unmarshalTags_comma (metric : Bytes) (res : Bytes × List Tag × Bytes) :
    unmarshalTags true metric [','.toUInt8] ≠ .ok res := by
  have herr : unmarshalTagPass true metric [','.toUInt8] =
      .error [.text "missing value for tag ", .debug [','.toUInt8]] := rfl
  rw [unmarshalTags_of_error herr]
  exact nofun

theorem unmarshalTags_of_closed {metric : Bytes} {pass : TagPass}
    (h : unmarshalTagPass true metric s = .ok pass)
    (hclosed : pass.closed = true) : unmarshalTags true metric s =
    .ok (pass.metric, pass.tags, pass.rest) := by
  rw [unmarshalTags_of_ok h, if_pos hclosed]

theorem unmarshalTags_of_more {metric name rest : Bytes} {tags : List Tag} {pass : TagPass}
    (h : unmarshalTagPass true metric s = .ok pass) (hclosed : pass.closed = false)
    (hmore : unmarshalTags true pass.metric pass.rest = .ok (name, tags, rest)) :
    unmarshalTags true metric s = .ok (name, pass.tags ++ tags, rest) := by
  rw [unmarshalTags_of_ok h, if_neg (Bool.eq_false_iff.mp hclosed), hmore]
  rfl

/-- A label list that is read is read by a last pass, or by a pass and what comes after it. -/
theorem unmarshalTags_cases {metric name rest : Bytes} {tags : List Tag}
    (h : unmarshalTags true metric s = .ok (name, tags, rest)) :
    ∃ pass, unmarshalTagPass true metric s = .ok pass ∧
      (pass.closed = true ∧ name = pass.metric ∧ tags = pass.tags ∧ rest = pass.rest ∨
        ∃ tags', pass.closed = false ∧ unmarshalTags true pass.metric pass.rest =
        .ok (name, tags', rest) ∧
          tags = pass.tags ++ tags') := by
  cases hpass : unmarshalTagPass true metric s with
  | error err =>
    rw [unmarshalTags_of_error hpass] at h
    exact nomatch h
  | ok pass =>
    refine ⟨pass, rfl, ?_⟩
    rw [unmarshalTags_of_ok hpass] at h
    split at h
    · next hclosed =>
      obtain ⟨rfl, hrest⟩ := Prod.mk.inj (Except.ok.inj h)
      obtain ⟨rfl, rfl⟩ := Prod.mk.inj hrest
      exact .inl ⟨hclosed, rfl, rfl, rfl⟩
    · next hclosed =>
      obtain ⟨⟨name', tags', rest'⟩, hmore, h⟩ := exists_of_bind_eq_ok h
      obtain ⟨rfl, hrest⟩ := Prod.mk.inj (Except.ok.inj h)
      obtain ⟨rfl, rfl⟩ := Prod.mk.inj hrest
      exact .inr ⟨tags', Bool.eq_false_iff.mpr hclosed, hmore, rfl⟩

/-- Induction on the passes of a label list that is read. -/
@[elab_as_elim]
theorem unmarshalTags_induction
    {motive : (metric s name : Bytes) → (tags : List Tag) → (rest : Bytes) →
      unmarshalTags true metric s = .ok (name, tags, rest) → Prop}
    (closed : ∀ metric s pass (hpass : unmarshalTagPass true metric s = .ok pass)
      (hclosed : pass.closed = true),
      motive metric s pass.metric pass.tags pass.rest (unmarshalTags_of_closed hpass hclosed))
    (more : ∀ metric s pass name tags rest (hpass : unmarshalTagPass true metric s = .ok pass)
      (hclosed : pass.closed = false) (hmore : unmarshalTags true pass.metric pass.rest =
        .ok (name, tags, rest)),
      motive pass.metric pass.rest name tags rest hmore →
      motive metric s name (pass.tags ++ tags) rest (unmarshalTags_of_more hpass hclosed hmore))
    {metric s name : Bytes} {tags : List Tag} {rest : Bytes}
    (h : unmarshalTags true metric s = .ok (name, tags, rest)) :
      motive metric s name tags rest h := by
  induction hn : s.length using Nat.strongRecOn generalizing metric s tags with
  | ind n ih =>
    obtain ⟨pass, hpass, ⟨hclosed, rfl, rfl, rfl⟩ | ⟨tags', hclosed, hmore, rfl⟩⟩ :=
      unmarshalTags_cases h
    · exact closed metric s pass hpass hclosed
    · have hlt := (unmarshalTagPass_suffix hpass).2
      exact more metric s pass name tags' rest hpass hclosed hmore (ih _ (by omega) hmore rfl)

theorem unmarshalTags_suffix {metric name rest : Bytes} {tags : List Tag}
    (h : unmarshalTags true metric s = .ok (name, tags, rest)) : rest <:+ s := by
  induction h using unmarshalTags_induction with
  | closed metric s pass hpass _ => exact (unmarshalTagPass_suffix hpass).1
  | more metric s pass name tags rest hpass _ _ ih =>
    exact ih.trans (unmarshalTagPass_suffix hpass).1

/-- A pass that starts at the closing brace is the last. -/
theorem closed_of_close {metric rest : Bytes} {pass : TagPass}
    (hstart : unmarshalTagStart true metric s = .ok (.close rest))
    (h : unmarshalTagPass true metric s = .ok pass) :
    pass = ⟨metric, [], rest, true⟩ := by
  rw [unmarshalTagPass, hstart] at h
  exact (Except.ok.inj h).symm

/-- A pass that is not the last reads the same with text after the line. -/
theorem unmarshalTagPass_append_of_more {metric : Bytes} {pass : TagPass}
    (h : unmarshalTagPass true metric s = .ok pass) (hclosed : pass.closed = false)
    {res : Bytes × List Tag × Bytes}
    (hmore : unmarshalTags true pass.metric pass.rest = .ok res) :
    unmarshalTagPass true metric (s ++ t) = .ok (pass.append t) := by
  refine unmarshalTagPass_append h (fun rest hstart => ?_) fun _ hcomma => ?_
  · rw [closed_of_close hstart h] at hclosed
    cases hclosed
  · rw [hcomma] at hmore
    exact absurd hmore (unmarshalTags_comma _ _)

theorem unmarshalTags_append {metric name rest : Bytes} {tags : List Tag}
    (h : unmarshalTags true metric s = .ok (name, tags, rest))
    (hclose : quote ∈ t → ¬ ClosesAtStart metric s) :
    unmarshalTags true metric (s ++ t) = .ok (name, tags, rest ++ t) := by
  induction h using unmarshalTags_induction with
  | closed metric s pass hpass hclosed =>
    have hstart : ∀ rest, unmarshalTagStart true metric s = .ok (.close rest) → quote ∉ t :=
      fun rest hstart hmem => hclose hmem (.close hstart)
    exact unmarshalTags_of_closed (unmarshalTagPass_append hpass hstart (by simp [hclosed])) hclosed
  | more metric s pass name tags rest hpass hclosed hmore ih =>
    have ih := ih fun hmem hcloses => hclose hmem (.pass hpass hclosed hcloses)
    have happend := unmarshalTagPass_append_of_more (t := t) hpass hclosed hmore
    have hmore' := unmarshalTags_of_more happend hclosed ih
    exact hmore'

/-! ### A line that the text changes -/

theorem mem_skipTrailingWhitespace {b : UInt8} (h : b ∈ s) (hb : isWhitespace b = false) :
    b ∈ skipTrailingWhitespace s := by
  rw [skipTrailingWhitespace, List.rdropWhile, mem_reverse]
  have hsplit := takeWhile_append_dropWhile (p := isWhitespace) (l := s.reverse)
  rw [← mem_reverse, ← hsplit, mem_append] at h
  refine h.resolve_left fun htake => ?_
  rw [mem_takeWhile_imp htake] at hb
  cases hb

/-- A key in quotes is a key, or the metric name when there is none. -/
theorem unmarshalQuotedKey_cases {metric rawKey rest : Bytes} {start : TagStart}
    (h : unmarshalQuotedKey metric rawKey rest = .ok start) :
    (∃ k r, start = .key k r) ∨ metric = [] ∧ ∃ name r, start = .metric name r := by
  rw [unmarshalQuotedKey] at h
  split at h
  · exact .inl ⟨_, _, (Except.ok.inj h).symm⟩
  · split at h
    · split at h
      · exact nomatch h
      · next hempty =>
        exact .inr ⟨isEmpty_iff.mp (not_not.mp hempty), _, _, (Except.ok.inj h).symm⟩
    · split at h
      · exact nomatch h
      · exact .inl ⟨_, _, (Except.ok.inj h).symm⟩

theorem unmarshalTagEnd_fields {metric key value rest : Bytes} {pass : TagPass}
    (h : unmarshalTagEnd metric key value rest = .ok pass) :
    pass.metric = metric ∧ pass.tags = if key.isEmpty then []
      else [⟨key, unescapeValue value⟩] := by
  rw [unmarshalTagEnd] at h
  split at h
  · exact nomatch h
  · split at h
    · rw [← Except.ok.inj h]
      exact ⟨rfl, rfl⟩
    · split at h
      · exact nomatch h
      · rw [← Except.ok.inj h]
        exact ⟨rfl, rfl⟩

/-- The text before the next quote, for a pass that starts at the closing brace. -/
theorem notMem_of_close {metric rest : Bytes}
    (h : unmarshalTagStart true metric s = .ok (.close rest)) :
    quote ∉ skipLeadingWhitespace s ∧ ∃ r, skipLeadingWhitespace s = '}'.toUInt8 :: r := by
  rw [unmarshalTagStart] at h
  generalize skipLeadingWhitespace s = s at h
  dsimp only at h
  split at h
  · next hnone =>
    split at h
    · next hclose =>
      refine ⟨idxOf?_eq_none_iff.mp hnone, ?_⟩
      cases s with
      | nil => cases hclose
      | cons b r => exact ⟨r, congrArg (· :: r) (Option.some.inj hclose)⟩
    · cases h
  · obtain ⟨⟨rawKey, rest'⟩, -, h⟩ := exists_of_bind_eq_ok h
    obtain ⟨k, r, heq⟩ | ⟨-, name, r, heq⟩ := unmarshalQuotedKey_cases h
    · cases heq
    · cases heq
  · split at h
    · cases h
    · cases h

/-- A quote in the text after the line makes a key of the closing brace. -/
theorem tags_ne_nil_of_close {metric rest : Bytes} {pass : TagPass}
    (hstart : unmarshalTagStart true metric s = .ok (.close rest)) (hmem : quote ∈ t)
    (h : unmarshalTagPass true metric (s ++ t) = .ok pass) : pass.tags ≠ [] := by
  obtain ⟨hquote, r, hs⟩ := notMem_of_close hstart
  have hne : skipLeadingWhitespace s ≠ [] := by simp [hs]
  obtain ⟨t1, t2, rfl, ht1⟩ := eq_append_cons_of_mem hmem
  have hbefore : quote ∉ '}'.toUInt8 :: r ++ t1 := by
    rw [← hs, mem_append]
    exact fun hmem => hmem.elim hquote ht1
  have hkey : unmarshalTagStart true metric (s ++ (t1 ++ quote :: t2)) =
      if (skipTrailingWhitespace ('}'.toUInt8 :: r ++ t1)).getLast? ≠ some '='.toUInt8 then
        .error [.text "missing value for unquoted tag ",
          .debug ('}'.toUInt8 :: r ++ t1 ++ quote :: t2)]
      else .ok (.key (skipTrailingWhitespace (skipTrailingWhitespace
        ('}'.toUInt8 :: r ++ t1)).dropLast)
        (quote :: t2)) := by
    have htake : ('}'.toUInt8 :: r ++ t1 ++ quote :: t2).take ('}'.toUInt8 :: r ++ t1).length =
        '}'.toUInt8 :: r ++ t1 := take_left
    have hdrop : ('}'.toUInt8 :: r ++ t1 ++ quote :: t2).drop ('}'.toUInt8 :: r ++ t1).length =
        quote :: t2 :=
      drop_left
    have hskip : skipLeadingWhitespace (s ++ (t1 ++ quote :: t2)) =
        '}'.toUInt8 :: r ++ t1 ++ quote :: t2 := by
      rw [skipLeadingWhitespace_append hne, hs, append_assoc]
    have hfind := idxOf?_append_cons hbefore t2
    rw [← hskip] at hfind
    obtain ⟨n, hn⟩ : ∃ n, ('}'.toUInt8 :: r ++ t1).length = n + 1 := ⟨(r ++ t1).length, rfl⟩
    rw [hn] at htake hdrop hfind
    rw [unmarshalTagStart_of_succ metric hfind, hskip, htake, hdrop]
  obtain ⟨start, hstart', h⟩ := exists_of_bind_eq_ok h
  rw [hkey] at hstart'
  split at hstart'
  · exact nomatch hstart'
  · next hequals =>
    obtain rfl := Except.ok.inj hstart'
    obtain ⟨⟨value, rest'⟩, -, h⟩ := exists_of_bind_eq_ok h
    rw [(unmarshalTagEnd_fields h).2]
    -- the closing brace is part of the key
    have hbrace : '}'.toUInt8 ∈ skipTrailingWhitespace ('}'.toUInt8 :: r ++ t1) :=
      mem_skipTrailingWhitespace (by simp) (by decide)
    generalize skipTrailingWhitespace ('}'.toUInt8 :: r ++ t1) = keyPart at hequals hbrace
    have hsplit := dropLast_append_getLast? _ (not_not.mp hequals)
    rw [← hsplit, mem_append, mem_singleton] at hbrace
    have hmem := mem_skipTrailingWhitespace (hbrace.resolve_right (by decide)) (by decide)
    rw [if_neg fun hempty => ne_nil_of_mem hmem (isEmpty_iff.mp hempty)]
    exact cons_ne_nil _ _

/-- Such a line has more tags with the text than without. -/
theorem length_tags_lt_of_closesAtStart {metric name rest name' rest' : Bytes}
    {tags tags' : List Tag}
    (hcloses : ClosesAtStart metric s) (hmem : quote ∈ t)
    (h : unmarshalTags true metric s = .ok (name, tags, rest))
    (h' : unmarshalTags true metric (s ++ t) = .ok (name', tags', rest')) :
    tags.length < tags'.length := by
  induction hcloses generalizing name tags rest name' tags' rest' with
  | close hstart =>
    obtain ⟨pass, hpass, hcases⟩ := unmarshalTags_cases h
    obtain ⟨pass', hpass', hcases'⟩ := unmarshalTags_cases h'
    have hne := length_pos_iff.mpr (tags_ne_nil_of_close hstart hmem hpass')
    rw [closed_of_close hstart hpass] at hcases
    obtain ⟨-, -, rfl, -⟩ | ⟨_, hclosed, -⟩ := hcases
    · obtain ⟨-, -, rfl, -⟩ | ⟨tags'', -, -, rfl⟩ := hcases'
      · exact hne
      · rw [length_append]
        exact Nat.add_pos_left hne _
    · exact nomatch hclosed
  | pass hpass hclosed _ ih =>
    obtain ⟨pass, hpass1, hcases⟩ := unmarshalTags_cases h
    obtain rfl := Except.ok.inj (hpass.symm.trans hpass1)
    obtain ⟨hclosed1, -⟩ | ⟨tags1, -, hmore, rfl⟩ := hcases
    · rw [hclosed1] at hclosed
      cases hclosed
    · have happend := unmarshalTagPass_append_of_more (t := t) hpass hclosed hmore
      obtain ⟨pass', hpass', hcases'⟩ := unmarshalTags_cases h'
      obtain rfl := Except.ok.inj (happend.symm.trans hpass')
      obtain ⟨hclosed2, -⟩ | ⟨tags2, -, hmore', rfl⟩ := hcases'
      · exact absurd (hclosed2.symm.trans hclosed) (by decide)
      · have hlt := ih hmore hmore'
        rw [length_append, length_append]
        exact Nat.add_lt_add_left hlt _

theorem unmarshalTagPass_metric {metric : Bytes} {pass : TagPass}
    (h : unmarshalTagPass true metric s = .ok pass)
    (hne : metric ≠ []) : pass.metric = metric := by
  obtain ⟨start, hstart, h⟩ := exists_of_bind_eq_ok h
  cases start with
  | close rest => rw [← Except.ok.inj h]
  | metric name rest =>
    rw [unmarshalTagStart] at hstart
    dsimp only at hstart
    split at hstart
    · split at hstart
      · cases hstart
      · cases hstart
    · obtain ⟨⟨rawKey, rest'⟩, -, hstart⟩ := exists_of_bind_eq_ok hstart
      obtain ⟨k, r, heq⟩ | ⟨hnil, -⟩ := unmarshalQuotedKey_cases hstart
      · cases heq
      · exact absurd hnil hne
    · split at hstart
      · cases hstart
      · cases hstart
  | key k rest =>
    obtain ⟨⟨value, rest'⟩, -, h⟩ := exists_of_bind_eq_ok h
    exact (unmarshalTagEnd_fields h).1

/-- A metric name that is there stays. -/
theorem unmarshalTags_metric {metric name rest : Bytes} {tags : List Tag}
    (h : unmarshalTags true metric s = .ok (name, tags, rest)) (hne : metric ≠ []) :
    name = metric := by
  induction h using unmarshalTags_induction with
  | closed metric s pass hpass _ => exact unmarshalTagPass_metric hpass hne
  | more metric s pass name tags rest hpass _ _ ih =>
    have heq := unmarshalTagPass_metric hpass hne
    rw [ih (by rwa [heq]), heq]

end Append

/-! ### Rows -/

section Rows

variable {F : Type} (ops : F64Ops F)

/-- A line after its metric name and tags. -/
def unmarshalRest (metric : Bytes) (tags : List Tag) (s : Bytes) : Except Message (Row F) :=
  if metric.isEmpty then .error [.text "metric cannot be empty"]
  else
    let s := skipTrailingComment (skipLeadingWhitespace s)
    if s.isEmpty then .error [.text "value cannot be empty"]
    else do
      let (value, timestamp) ← unmarshalValueTimestamp ops s
      .ok ⟨metric, tags, value, timestamp⟩

theorem unmarshalSingleRow_of_ok {e : Bool} {s metric rest : Bytes} {tags : List Tag}
    (h : unmarshalMetric e (skipLeadingWhitespace s) = .ok (metric, tags, rest)) :
    unmarshalSingleRow ops e s = unmarshalRest ops metric tags rest := by
  rw [unmarshalSingleRow, h]
  rfl

theorem skipTrailingComment_of_notMem {s : Bytes} (h : '#'.toUInt8 ∉ s) :
    skipTrailingComment s = s := by
  rw [skipTrailingComment, idxOf?_eq_none_iff.mpr h]

/-- What is left of a value with a comment after it. -/
theorem skipTrailingComment_append {s : Bytes} (h : '#'.toUInt8 ∉ s) (c : Bytes) :
    skipTrailingComment (s ++ trailingComment c) = s ++ [' '.toUInt8] := by
  have hnotMem : '#'.toUInt8 ∉ s ++ [' '.toUInt8] := by
    rw [mem_append, mem_singleton]
    exact fun hmem => hmem.elim h (by decide)
  have hsplit : s ++ trailingComment c = s ++ [' '.toUInt8] ++ '#'.toUInt8 ::
      (' '.toUInt8 :: c) := by
    rw [append_assoc]
    rfl
  rw [skipTrailingComment, hsplit, idxOf?_append_cons hnotMem]
  exact take_left

theorem skipLeadingWhitespace_append_blank {b : UInt8} (hb : isWhitespace b = true) (s : Bytes) :
    skipLeadingWhitespace (s ++ [b]) =
      if skipLeadingWhitespace s = [] then [] else skipLeadingWhitespace s ++ [b] := by
  split
  · next hnil =>
    rw [skipLeadingWhitespace] at hnil
    rw [skipLeadingWhitespace, dropWhile_append, if_pos (isEmpty_iff.mpr hnil),
      dropWhile_cons_of_pos hb, dropWhile_nil]
  · next hne => exact skipLeadingWhitespace_append hne [b]

/-- A blank at the end of a value or a timestamp. -/
theorem unmarshalValueTimestamp_append_blank (s : Bytes) :
    unmarshalValueTimestamp ops (s ++ [' '.toUInt8]) = unmarshalValueTimestamp ops s := by
  have hblank : isWhitespace ' '.toUInt8 = true := by decide
  rw [unmarshalValueTimestamp, unmarshalValueTimestamp, nextWhitespace, nextWhitespace,
    findIdx?_append]
  cases hfind : s.findIdx? isWhitespace with
  | none =>
    have hlast : [' '.toUInt8].findIdx? isWhitespace = some 0 := rfl
    have hdrop : (s ++ [' '.toUInt8]).drop (s.length + 1) = [] := drop_of_length_le (by simp)
    simp only [hlast, Option.map_some, Option.none_or, Nat.zero_add, take_left, hdrop]
    rfl
  | some n =>
    obtain ⟨hlt, -⟩ := findIdx?_eq_some_iff_getElem.mp hfind
    have htake : (s ++ [' '.toUInt8]).take n = s.take n := take_append_of_le_length hlt.le
    have hdrop := drop_append_of_lt hlt [' '.toUInt8]
    simp only [Option.some_or, htake, hdrop, skipLeadingWhitespace_append_blank hblank]
    by_cases hnil : skipLeadingWhitespace (s.drop (n + 1)) = []
    · simp only [hnil, if_true]
    · have htrim : skipTrailingWhitespace (skipLeadingWhitespace (s.drop (n + 1)) ++
          [' '.toUInt8]) = skipTrailingWhitespace (skipLeadingWhitespace (s.drop (n + 1))) :=
        rdropWhile_concat_pos _ _ _ hblank
      have hempty : (skipLeadingWhitespace (s.drop (n + 1)) ++ [' '.toUInt8]).isEmpty = false := by
        simp
      have hempty' : (skipLeadingWhitespace (s.drop (n + 1))).isEmpty = false := by
        simpa using hnil
      simp only [hnil, if_false, htrim, hempty, hempty']

theorem unmarshalRest_fields {metric s : Bytes} {tags : List Tag} {row : Row F}
    (h : unmarshalRest ops metric tags s = .ok row) : row.metric = metric ∧ row.tags = tags := by
  rw [unmarshalRest] at h
  split at h
  · exact nomatch h
  · dsimp only at h
    split at h
    · exact nomatch h
    · obtain ⟨⟨value, timestamp⟩, -, h⟩ := exists_of_bind_eq_ok h
      rw [← Except.ok.inj h]
      exact ⟨rfl, rfl⟩

theorem unmarshalRest_append {metric s : Bytes} {tags : List Tag} {row : Row F}
    (hhash : '#'.toUInt8 ∉ s)
    (h : unmarshalRest ops metric tags s = .ok row) (c : Bytes) :
    unmarshalRest ops metric tags (s ++ trailingComment c) = .ok row := by
  have hhash' : '#'.toUInt8 ∉ skipLeadingWhitespace s :=
    fun hmem => hhash ((skipLeadingWhitespace_suffix s).mem hmem)
  rw [unmarshalRest, skipTrailingComment_of_notMem hhash'] at h
  have hne : skipLeadingWhitespace s ≠ [] := by
    intro hnil
    rw [hnil] at h
    split at h
    · exact nomatch h
    · exact nomatch h
  rw [unmarshalRest, skipLeadingWhitespace_append hne, skipTrailingComment_append hhash']
  split at h
  · exact nomatch h
  · next hmetric =>
    have hempty : ¬ (skipLeadingWhitespace s).isEmpty := fun hempty => hne (isEmpty_iff.mp hempty)
    have hempty' : ¬ (skipLeadingWhitespace s ++ [' '.toUInt8]).isEmpty := by simp
    rw [if_neg hmetric]
    dsimp only at h ⊢
    rw [if_neg hempty] at h
    rw [if_neg hempty', unmarshalValueTimestamp_append_blank, h]

/-- The flag makes no difference when it is set for every line with an escape character. -/
theorem unmarshalSingleRow_flag {e : Bool} {s : Bytes} (he : e = false → backslash ∉ s) :
    unmarshalSingleRow ops e s = unmarshalSingleRow ops true s := by
  cases e with
  | true => rfl
  | false =>
    have hskip := not_mem_of_suffix (he rfl) (skipLeadingWhitespace_suffix s)
    rw [unmarshalSingleRow, unmarshalSingleRow, unmarshalMetric_eq hskip]

theorem mem_skipLeadingWhitespace {b : UInt8} {s : Bytes} (hb : isWhitespace b = false) :
    b ∈ skipLeadingWhitespace s ↔ b ∈ s := by
  refine ⟨fun hmem => (skipLeadingWhitespace_suffix s).mem hmem, fun hmem => ?_⟩
  have hsplit := takeWhile_append_dropWhile (p := isWhitespace) (l := s)
  rw [← hsplit, mem_append] at hmem
  refine hmem.resolve_left fun htake => ?_
  rw [mem_takeWhile_imp htake] at hb
  cases hb

theorem mem_trailingComment {b : UInt8} (hb : b ∉ ascii " # ") (c : Bytes) :
    b ∈ trailingComment c ↔ b ∈ c := by
  rw [trailingComment, mem_append]
  exact or_iff_right hb

/-- A line that is read is read to its rest. -/
theorem unmarshalSingleRow_cases {s : Bytes} {row : Row F}
    (h : unmarshalSingleRow ops true s = .ok row) :
    ∃ rest, unmarshalMetric true (skipLeadingWhitespace s) = .ok (row.metric, row.tags, rest) ∧
      unmarshalRest ops row.metric row.tags rest = .ok row := by
  obtain ⟨⟨metric, tags, rest⟩, hmetric, hrest⟩ := exists_of_bind_eq_ok h
  obtain ⟨rfl, rfl⟩ := unmarshalRest_fields ops hrest
  exact ⟨rest, hmetric, hrest⟩

/-- A line with a label list. -/
theorem comment_iff_of_labels {s c : Bytes} {n : ℕ} {row : Row F} (hhash : '#'.toUInt8 ∉ s)
    (hbrace : (skipLeadingWhitespace s).idxOf? '{'.toUInt8 = some n)
    (h : unmarshalSingleRow ops true s = .ok row) :
    unmarshalSingleRow ops true (s ++ trailingComment c) = .ok row ↔
    (quote ∈ c → ¬ LabelsCloseAtStart s) := by
  have hquote := mem_trailingComment (b := quote) (by decide) c
  have hne : skipLeadingWhitespace s ≠ [] := by
    intro hnil
    rw [hnil] at hbrace
    exact nomatch hbrace
  have hlt := lt_of_idxOf? hbrace
  have htake : (skipLeadingWhitespace s ++ trailingComment c).take n =
      (skipLeadingWhitespace s).take n :=
    take_append_of_le_length hlt.le
  have hmetric' : unmarshalMetric true (skipLeadingWhitespace (s ++ trailingComment c)) =
      unmarshalTags true (skipTrailingWhitespace ((skipLeadingWhitespace s).take n))
        ((skipLeadingWhitespace s).drop (n + 1) ++ trailingComment c) := by
    rw [skipLeadingWhitespace_append hne, unmarshalMetric, idxOf?_append_of_some hbrace]
    dsimp only
    rw [htake, drop_append_of_lt hlt]
  obtain ⟨rest, hmetric, hrest⟩ := unmarshalSingleRow_cases ops h
  rw [unmarshalMetric, hbrace] at hmetric
  have hsuffix : rest <:+ s :=
    (unmarshalTags_suffix hmetric).trans ((drop_suffix _ _).trans (skipLeadingWhitespace_suffix s))
  constructor
  · intro h' hmem hcloses
    obtain ⟨n', hbrace', hcloses⟩ := hcloses
    obtain rfl := Option.some.inj (hbrace.symm.trans hbrace')
    obtain ⟨rest', hmetric'', -⟩ := unmarshalSingleRow_cases ops h'
    rw [hmetric'] at hmetric''
    exact absurd (length_tags_lt_of_closesAtStart hcloses (hquote.mpr hmem) hmetric hmetric'')
      (Nat.lt_irrefl _)
  · intro hcloses
    have happend := unmarshalTags_append hmetric fun hmem hstart =>
      hcloses (hquote.mp hmem) ⟨n, hbrace, hstart⟩
    rw [← hmetric'] at happend
    rw [unmarshalSingleRow_of_ok ops happend]
    exact unmarshalRest_append ops (fun hmem => hhash (hsuffix.mem hmem)) hrest c

/-- A line without labels. -/
theorem comment_iff_of_no_labels {s c : Bytes} {row : Row F} (hhash : '#'.toUInt8 ∉ s)
    (hbrace : (skipLeadingWhitespace s).idxOf? '{'.toUInt8 = none)
    (h : unmarshalSingleRow ops true s = .ok row) :
    unmarshalSingleRow ops true (s ++ trailingComment c) = .ok row ↔ '{'.toUInt8 ∉ c := by
  have hbraceC := mem_trailingComment (b := '{'.toUInt8) (by decide) c
  obtain ⟨rest, hmetric, hrest⟩ := unmarshalSingleRow_cases ops h
  rw [unmarshalMetric, hbrace] at hmetric
  dsimp only at hmetric
  cases hfind : nextWhitespace (skipLeadingWhitespace s) with
  | none =>
    rw [hfind] at hmetric
    cases hmetric
  | some n =>
    rw [hfind] at hmetric
    obtain ⟨hlt, -⟩ := findIdx?_eq_some_iff_getElem.mp hfind
    have hne : skipLeadingWhitespace s ≠ [] := ne_nil_of_length_pos (by omega)
    obtain ⟨hname, hmetric⟩ := Prod.mk.inj (Except.ok.inj hmetric)
    obtain ⟨htags, rfl⟩ := Prod.mk.inj hmetric
    constructor
    · intro h' hmem
      obtain ⟨rest', hmetric', -⟩ := unmarshalSingleRow_cases ops h'
      obtain ⟨c1, c2, rfl, hc1⟩ := eq_append_cons_of_mem hmem
      -- the line and the comment up to the brace make the name
      have hbefore : '{'.toUInt8 ∉ skipLeadingWhitespace s ++ trailingComment c1 := by
        rw [mem_append, mem_trailingComment (by decide)]
        exact fun hmem' => hmem'.elim (idxOf?_eq_none_iff.mp hbrace) hc1
      have hsplit : skipLeadingWhitespace (s ++ trailingComment (c1 ++ '{'.toUInt8 :: c2)) =
          skipLeadingWhitespace s ++ trailingComment c1 ++ '{'.toUInt8 :: c2 := by
        rw [skipLeadingWhitespace_append hne, trailingComment, trailingComment, append_assoc,
          append_assoc]
      have hsharp : '#'.toUInt8 ∈ skipTrailingWhitespace
          (skipLeadingWhitespace s ++ trailingComment c1) := by
        refine mem_skipTrailingWhitespace (mem_append_right _ ?_) (by decide)
        exact mem_append_left _ (by decide)
      rw [hsplit, unmarshalMetric, idxOf?_append_cons hbefore] at hmetric'
      dsimp only at hmetric'
      rw [take_left] at hmetric'
      have heq := unmarshalTags_metric hmetric' (ne_nil_of_mem hsharp)
      rw [← heq, ← hname] at hsharp
      exact hhash ((skipLeadingWhitespace_suffix s).mem (mem_of_mem_take hsharp))
    · intro hmem
      have hnone : (skipLeadingWhitespace s ++ trailingComment c).idxOf? '{'.toUInt8 = none := by
        rw [idxOf?_eq_none_iff] at hbrace ⊢
        exact fun hmem' => (mem_append.mp hmem').elim hbrace fun h => hmem (hbraceC.mp h)
      have hnext : nextWhitespace (skipLeadingWhitespace s ++ trailingComment c) = some n := by
        rw [nextWhitespace] at hfind ⊢
        rw [findIdx?_append, hfind, Option.some_or]
      have htake : (skipLeadingWhitespace s ++ trailingComment c).take n =
          (skipLeadingWhitespace s).take n :=
        take_append_of_le_length hlt.le
      have hmetric' : unmarshalMetric true (skipLeadingWhitespace (s ++ trailingComment c)) =
          .ok (row.metric, row.tags, (skipLeadingWhitespace s).drop (n + 1) ++
            trailingComment c) := by
        rw [skipLeadingWhitespace_append hne, unmarshalMetric, hnone]
        dsimp only
        rw [hnext]
        dsimp only
        rw [htake, drop_append_of_lt hlt, hname, htags]
      have hsuffix : (skipLeadingWhitespace s).drop (n + 1) <:+ s :=
        (drop_suffix _ _).trans (skipLeadingWhitespace_suffix s)
      rw [unmarshalSingleRow_of_ok ops hmetric']
      exact unmarshalRest_append ops (fun hmem => hhash (hsuffix.mem hmem)) hrest c

/-- **A comment after a line changes nothing of its row**, unless it has a brace and the line has no
label list, or it has a quote and the label list ends at the start of a pass. The flags may be those
of any texts that the two lines are part of. -/
theorem comment_ignored_iff {s c : Bytes} {e e' : Bool} {row : Row F}
    (he : e = false → backslash ∉ s)
    (he' : e' = false → backslash ∉ s ++ trailingComment c) (hhash : '#'.toUInt8 ∉ s)
    (h : unmarshalSingleRow ops e s = .ok row) :
    unmarshalSingleRow ops e' (s ++ trailingComment c) = .ok row ↔
      ('{'.toUInt8 ∈ c → '{'.toUInt8 ∈ s) ∧ (quote ∈ c → ¬ LabelsCloseAtStart s) := by
  rw [unmarshalSingleRow_flag ops he] at h
  rw [unmarshalSingleRow_flag ops he', ← mem_skipLeadingWhitespace (s := s) (by decide)]
  cases hbrace : (skipLeadingWhitespace s).idxOf? '{'.toUInt8 with
  | none =>
    have hnone := idxOf?_eq_none_iff.mp hbrace
    have hopen : ¬ LabelsCloseAtStart s := fun ⟨n, hn, _⟩ => nomatch hbrace.symm.trans hn
    rw [comment_iff_of_no_labels ops hhash hbrace h]
    exact ⟨fun hmem => ⟨fun hmem' => absurd hmem' hmem, fun _ => hopen⟩,
      fun hcond hmem => hnone (hcond.1 hmem)⟩
  | some n =>
    have hmem : '{'.toUInt8 ∈ skipLeadingWhitespace s := by
      by_contra hnone
      rw [idxOf?_eq_none_iff.mpr hnone] at hbrace
      cases hbrace
    rw [comment_iff_of_labels ops hhash hbrace h]
    exact ⟨fun hcond => ⟨fun _ => hmem, hcond⟩, And.right⟩

theorem unmarshalSingleRow_bucket :
    unmarshalSingleRow integerOps false (ascii "foo\x7ble=\"10\"\x7d 17") =
      .ok ⟨ascii "foo", [⟨ascii "le", ascii "10"⟩], 17, 0⟩ := by
  have hpass : unmarshalTagPass false (ascii "foo") (ascii "le=\"10\"\x7d 17") =
      .ok ⟨ascii "foo", [⟨ascii "le", ascii "10"⟩], ascii " 17", true⟩ := by
    decide
  have hmetric : unmarshalMetric false (skipLeadingWhitespace (ascii "foo\x7ble=\"10\"\x7d 17")) =
      .ok (ascii "foo", [⟨ascii "le", ascii "10"⟩], ascii " 17") :=
    (unmarshalTags_of_ok hpass).trans rfl
  rw [unmarshalSingleRow_of_ok integerOps hmetric]
  decide

/-- An exemplar after a sample of a histogram. -/
theorem comment_ignored_iff_exemplar :
    unmarshalSingleRow integerOps false
        (ascii "foo\x7ble=\"10\"\x7d 17" ++ trailingComment (ascii "\x7ba=\"b\"\x7d 9")) =
        .ok ⟨ascii "foo", [⟨ascii "le", ascii "10"⟩], 17, 0⟩ ↔
      ('{'.toUInt8 ∈ ascii "\x7ba=\"b\"\x7d 9" → '{'.toUInt8 ∈ ascii "foo\x7ble=\"10\"\x7d 17") ∧
        (quote ∈ ascii "\x7ba=\"b\"\x7d 9" → ¬ LabelsCloseAtStart
          (ascii "foo\x7ble=\"10\"\x7d 17")) :=
  comment_ignored_iff integerOps (by decide) (by decide) (by decide) unmarshalSingleRow_bucket

/-- The exemplar of a sample without labels is read instead of it. -/
theorem comment_read_as_sample :
    unmarshalSingleRow integerOps false (ascii "foo 1") = .ok ⟨ascii "foo", [], 1, 0⟩ ∧
      unmarshalSingleRow integerOps false (ascii "foo 1" ++
        trailingComment (ascii "\x7ba=\"b\"\x7d 2")) =
        .ok ⟨ascii "foo 1 #", [⟨ascii "a", ascii "b"⟩], 2, 0⟩ := by
  refine ⟨by decide, ?_⟩
  have hpass : unmarshalTagPass false (ascii "foo 1 #") (ascii "a=\"b\"\x7d 2") =
      .ok ⟨ascii "foo 1 #", [⟨ascii "a", ascii "b"⟩], ascii " 2", true⟩ := by
    decide
  have hmetric : unmarshalMetric false
      (skipLeadingWhitespace (ascii "foo 1" ++ trailingComment (ascii "\x7ba=\"b\"\x7d 2"))) =
      .ok (ascii "foo 1 #", [⟨ascii "a", ascii "b"⟩], ascii " 2") :=
    (unmarshalTags_of_ok hpass).trans rfl
  rw [unmarshalSingleRow_of_ok integerOps hmetric]
  decide

end Rows

end Esmetrics.Protoparser.Prometheus
