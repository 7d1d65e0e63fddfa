import Esmetrics.Lib.BigEndian
import Esmetrics.Lib.Lines
import Esmetrics.Lib.Outcome
import Esmetrics.Lib.Utf8

/-!
# Answers of a name server

Model of `esmagent/src/scrape/dns/wire.rs`: the names of a query are written label by label, and the
answer section of a response is read, whose names may go on at an earlier offset of the message.

`NameAt msg pos labels jumps next` says that a name stands at an offset, with the number of pointers
on the way through it and the offset behind it. It is stable when the message grows, so that a name
may be written with a pointer to any copy that is complete (`WritesName`), and `readNameLoop`
follows it with an induction over its derivation: the pointers of the rest of the name are what is
left of the budget.
-/

namespace Esmetrics.Esmagent.Dns

open List Outcome

def dot : UInt8 := '.'.toUInt8

def malformed {α : Type} (msg : String) : Outcome α := .err ("malformed DNS response: " ++ msg)

/-- `labels.join(".")` -/
def joinLabels (labels : List Bytes) : Bytes := [dot].intercalate labels

/-- The type of an `SRV` record. -/
def qtypeSrv : UInt16 := 33

/-- The type of an `MX` record. -/
def qtypeMx : UInt16 := 15

def headerLen : ℕ := 12

/-- An answer: a host, and the port of an `SRV` record. -/
structure DnsRecord where
  target : Bytes
  port : UInt16
deriving DecidableEq

/-! ### Writing a name -/

/-- The body of the loop of `encode_name`. -/
def encodeLabel (buf label : Bytes) : Outcome Bytes :=
  if label = [] then .ok buf
  else if 63 < label.length then .err "DNS label exceeds 63 bytes"
  else .ok (buf ++ UInt8.ofNat label.length :: label)

def encodeName (name buf : Bytes) : Outcome Bytes := do
  let buf ← (name.splitOn dot).foldlM encodeLabel buf
  .ok (buf ++ [0])

/-! ### Reading a response -/

/-- `msg[a..b]` -/
def slice (msg : Bytes) (a b : ℕ) : Outcome Bytes :=
  if a ≤ b ∧ b ≤ msg.length then .ok ((msg.drop a).take (b - a)) else .panic "range out of bounds"

/-- `u16::from_be_bytes([msg[i], msg[i + 1]])` -/
def readU16 (msg : Bytes) (i : ℕ) : Outcome UInt16 := do
  let high ← .index msg[i]?
  let low ← .index msg[i + 1]?
  .ok (UInt16.ofNat (beNat [high, low]))

/-- The loop of `read_name`. A round takes one of the 128 jumps, or goes ahead in the message. -/
def readNameLoop (msg : Bytes) (cur : ℕ) (labels : List Bytes) (nextAfter : Option ℕ) (jumps : ℕ) :
    Outcome (Bytes × ℕ) :=
  if _hcur : msg.length ≤ cur then malformed "name offset out of bounds"
  else do
    let byte ← .index msg[cur]?
    let len := byte.toNat
    if len &&& 0xc0 = 0xc0 then
      if msg.length ≤ cur + 1 then malformed "truncated compression pointer"
      else do
        let low ← .index msg[cur + 1]?
        let ptr := (len &&& 0x3f) <<< 8 ||| low.toNat
        let nextAfter := nextAfter.or (some (cur + 2))
        if hjumps : 128 < jumps + 1 then malformed "too many compression pointers"
        else readNameLoop msg ptr labels nextAfter (jumps + 1)
    else if len = 0 then .ok (joinLabels labels, nextAfter.getD (cur + 1))
    else if msg.length < cur + 1 + len then malformed "label runs past end of message"
    else do
      let label ← slice msg (cur + 1) (cur + 1 + len)
      readNameLoop msg (cur + 1 + len) (labels ++ [fromUtf8Lossy label]) nextAfter jumps
termination_by (129 - jumps, msg.length - cur)

def readName (msg : Bytes) (pos : ℕ) : Outcome (Bytes × ℕ) := readNameLoop msg pos [] none 0

/-- `name.trim_end_matches('.')` -/
def stripRootDot (name : Bytes) : Bytes := name.rdropWhile (· = dot)

def parseRdata (msg : Bytes) (rdataStart : ℕ) (qtype : UInt16) : Outcome (Option DnsRecord) :=
  if qtype = qtypeSrv then
    if msg.length < rdataStart + 6 then malformed "truncated SRV rdata"
    else do
      let port ← readU16 msg (rdataStart + 4)
      let (target, _) ← readName msg (rdataStart + 6)
      .ok (some ⟨stripRootDot target, port⟩)
  else if qtype = qtypeMx then
    if msg.length < rdataStart + 2 then malformed "truncated MX rdata"
    else do
      let (target, _) ← readName msg (rdataStart + 2)
      .ok (some ⟨stripRootDot target, 0⟩)
  else .ok none

/-- The loop over the questions of `parse_answers`. -/
def skipQuestions (msg : Bytes) : ℕ → ℕ → Outcome ℕ
  | 0, pos => .ok pos
  | n + 1, pos => do
    let (_, next) ← readName msg pos
    if msg.length < next + 4 then malformed "truncated question section"
    else skipQuestions msg n (next + 4)

/-- The loop over the records of `parse_answers`. -/
def readRecords (msg : Bytes) (qtype : UInt16) : ℕ → ℕ → List DnsRecord → Outcome (List DnsRecord)
  | 0, _, records => .ok records
  | n + 1, pos, records => do
    let (_, pos) ← readName msg pos
    if msg.length < pos + 10 then malformed "truncated resource record header"
    else do
      let rtype ← readU16 msg pos
      let rdlength ← readU16 msg (pos + 8)
      let rdataEnd := pos + 10 + rdlength.toNat
      if msg.length < rdataEnd then malformed "resource record rdata out of bounds"
      else if rtype = qtype then do
        let record ← parseRdata msg (pos + 10) qtype
        readRecords msg qtype n rdataEnd (records ++ record.toList)
      else readRecords msg qtype n rdataEnd records

def parseAnswers (response : Bytes) (queryId qtype : UInt16) : Outcome (List DnsRecord) :=
  if response.length < headerLen then malformed "response shorter than DNS header"
  else do
    let id ← readU16 response 0
    if id ≠ queryId then malformed "response id does not match query id"
    else do
      let qdcount ← readU16 response 4
      let ancount ← readU16 response 6
      let pos ← skipQuestions response qdcount.toNat headerLen
      readRecords response qtype ancount.toNat pos []

/-! ### No message makes the reader panic -/

theorem not_panics_malformed {α : Type} (msg : String) : ¬ (malformed msg : Outcome α).Panics :=
  not_panics_err _

theorem slice_of_le {msg : Bytes} {a b : ℕ} (hab : a ≤ b) (hb : b ≤ msg.length) :
    slice msg a b = .ok ((msg.drop a).take (b - a)) := if_pos ⟨hab, hb⟩

theorem exists_readU16 (msg : Bytes) (i : ℕ) (h : i + 2 ≤ msg.length) : ∃ n,
    readU16 msg i = .ok n := by
  rw [readU16, getElem?_eq_getElem (Nat.lt_of_succ_lt h), getElem?_eq_getElem h]
  exact ⟨_, rfl⟩

theorem not_panics_readNameLoop (msg : Bytes) (cur : ℕ) (labels : List Bytes) (nextAfter : Option ℕ)
    (jumps : ℕ) : ¬ (readNameLoop msg cur labels nextAfter jumps).Panics := by
  induction cur, labels, nextAfter, jumps using readNameLoop.induct msg with
  | case1 cur labels nextAfter jumps hcur =>
    rw [readNameLoop, dif_pos hcur]
    exact not_panics_malformed _
  | case2 cur labels nextAfter jumps hcur ihJump ihLabel =>
    rw [readNameLoop, dif_neg hcur, getElem?_eq_getElem (not_le.mp hcur), index_some, ok_bind]
    generalize msg[cur] = byte
    dsimp only
    split_ifs with hpointer htruncated hjumps hzero hend
    · exact not_panics_malformed _
    · -- a jump
      rw [getElem?_eq_getElem (not_le.mp htruncated), index_some, ok_bind]
      exact not_panics_malformed _
    · rw [getElem?_eq_getElem (not_le.mp htruncated), index_some, ok_bind]
      exact ihJump byte _ hjumps
    · exact not_panics_ok _
    · exact not_panics_malformed _
    · rw [slice_of_le (Nat.le_add_right _ _) (not_lt.mp hend), ok_bind]
      exact ihLabel byte hend _

theorem not_panics_readName (msg : Bytes) (pos : ℕ) : ¬ (readName msg pos).Panics :=
  not_panics_readNameLoop msg pos [] none 0

theorem not_panics_parseRdata {msg : Bytes} {rdataStart : ℕ} (qtype : UInt16) :
    ¬ (parseRdata msg rdataStart qtype).Panics := by
  rw [parseRdata]
  split_ifs with hsrv hshort hmx hshort
  · exact not_panics_malformed _
  · obtain ⟨port, hport⟩ := exists_readU16 msg (rdataStart + 4) (not_lt.mp hshort)
    rw [hport, ok_bind, panics_bind_iff]
    rintro (hname | ⟨_, -, hok⟩)
    · exact not_panics_readName _ _ hname
    · exact not_panics_ok _ hok
  · exact not_panics_malformed _
  · rw [panics_bind_iff]
    rintro (hname | ⟨_, -, hok⟩)
    · exact not_panics_readName _ _ hname
    · exact not_panics_ok _ hok
  · exact not_panics_ok _

theorem not_panics_skipQuestions (msg : Bytes) (n pos : ℕ) :
    ¬ (skipQuestions msg n pos).Panics := by
  induction n generalizing pos with
  | zero => exact not_panics_ok _
  | succ n ih =>
    rw [skipQuestions, panics_bind_iff]
    rintro (hname | ⟨⟨_, next⟩, -, hrest⟩)
    · exact not_panics_readName _ _ hname
    · dsimp only at hrest
      split_ifs at hrest with hshort
      · exact not_panics_malformed _ hrest
      · exact ih _ hrest

theorem not_panics_readRecords (msg : Bytes) (qtype : UInt16) (n pos : ℕ)
    (records : List DnsRecord) : ¬ (readRecords msg qtype n pos records).Panics := by
  induction n generalizing pos records with
  | zero => exact not_panics_ok _
  | succ n ih =>
    rw [readRecords, panics_bind_iff]
    rintro (hname | ⟨⟨_, next⟩, -, hrest⟩)
    · exact not_panics_readName _ _ hname
    dsimp only at hrest
    by_cases hshort : msg.length < next + 10
    · rw [if_pos hshort] at hrest
      exact not_panics_malformed _ hrest
    -- the ten bytes behind the name are there
    obtain ⟨rtype, hrtype⟩ := exists_readU16 msg next (by omega)
    obtain ⟨rdlength, hrdlength⟩ := exists_readU16 msg (next + 8) (by omega)
    rw [if_neg hshort, hrtype, ok_bind, hrdlength, ok_bind] at hrest
    split_ifs at hrest with hend hqtype
    · exact not_panics_malformed _ hrest
    · obtain hrdata | ⟨record, -, hrest⟩ := panics_bind_iff.mp hrest
      · exact not_panics_parseRdata _ hrdata
      · exact ih _ _ hrest
    · exact ih _ _ hrest

theorem not_panics_parseAnswers (response : Bytes) (queryId qtype : UInt16) :
    ¬ (parseAnswers response queryId qtype).Panics := by
  rw [parseAnswers]
  split_ifs with hshort
  · exact not_panics_malformed _
  have hlen : 12 ≤ response.length := not_lt.mp hshort
  obtain ⟨id, hid⟩ := exists_readU16 response 0 (by omega)
  obtain ⟨qdcount, hqdcount⟩ := exists_readU16 response 4 (by omega)
  obtain ⟨ancount, hancount⟩ := exists_readU16 response 6 (by omega)
  rw [hid, ok_bind, hqdcount, ok_bind, hancount, ok_bind]
  split_ifs with hne
  · exact not_panics_malformed _
  · rw [panics_bind_iff]
    rintro (hquestions | ⟨pos, -, hrecords⟩)
    · exact not_panics_skipQuestions _ _ _ hquestions
    · exact not_panics_readRecords _ _ _ _ _ hrecords

/-! ### Names in a message -/

/-- A label: 1 to 63 ASCII characters, and no dot. -/
structure IsLabel (label : Bytes) : Prop where
  ne_nil : label ≠ []
  length_le : label.length ≤ 63
  ascii : ∀ c ∈ label, c < 0x80
  dot_notMem : dot ∉ label

/-- A label on the wire. -/
def labelBytes (l : Bytes) : Bytes := UInt8.ofNat l.length :: l

/-- A pointer to an offset. -/
def pointer (target : ℕ) : Bytes := beBytes 2 (0xc000 + target)

/-- A name stands at an offset of a message. -/
inductive NameAt (msg : Bytes) : ℕ → List Bytes → ℕ → ℕ → Prop where
  | root {pos : ℕ} (h : [0] <+: msg.drop pos) : NameAt msg pos [] 0 (pos + 1)
  | label {pos : ℕ} {l : Bytes} {labels : List Bytes} {jumps next : ℕ} (hl : IsLabel l)
      (h : labelBytes l <+: msg.drop pos)
      (hrest : NameAt msg (pos + 1 + l.length) labels jumps next) :
      NameAt msg pos (l :: labels) jumps next
  | pointer {pos target : ℕ} {labels : List Bytes} {jumps next : ℕ} (htarget : target < 2 ^ 14)
      (h : pointer target <+: msg.drop pos) (hcopy : NameAt msg target labels jumps next) :
      NameAt msg pos labels (jumps + 1) (pos + 2)

variable {pos next count : ℕ}

/-- A name stays where it is when the message grows. -/
theorem NameAt.mono {out msg : Bytes} {jumps : ℕ} {labels : List Bytes}
    (hname : NameAt out pos labels jumps next) (h : out <+: msg) :
    NameAt msg pos labels jumps next := by
  induction hname with
  | root hroot => exact .root (hroot.trans (h.drop _))
  | label hl hlabel _ ih => exact .label hl (hlabel.trans (h.drop _)) ih
  | pointer htarget hpointer _ ih => exact .pointer htarget (hpointer.trans (h.drop _)) ih

theorem NameAt.isLabel {msg : Bytes} {jumps : ℕ} {labels : List Bytes}
    (h : NameAt msg pos labels jumps next) :
    ∀ l ∈ labels, IsLabel l := by
  induction h with
  | root _ => exact fun l hl => absurd hl not_mem_nil
  | label hl _ _ ih => exact forall_mem_cons.mpr ⟨hl, ih⟩
  | pointer _ _ _ ih => exact ih

variable {msg : Bytes} {cur jumps : ℕ} {labels : List Bytes} {nextAfter : Option ℕ}

theorem getElem?_of_prefix_drop {bytes : Bytes} (h : bytes <+: msg.drop cur) {i : ℕ}
    (hi : i < bytes.length) : msg[cur + i]? = bytes[i]? := by
  obtain ⟨rest, hrest⟩ := h
  rw [← getElem?_drop, ← hrest, getElem?_append_left hi]

theorem length_le_of_prefix_drop {bytes : Bytes} (h : bytes <+: msg.drop cur) (hne : bytes ≠ []) :
    cur + bytes.length ≤ msg.length := by
  have hlen := h.length_le
  have hpos := length_pos_iff.mpr hne
  rw [length_drop] at hlen
  omega

theorem readNameLoop_root (h : [0] <+: msg.drop cur) :
    readNameLoop msg cur labels nextAfter jumps = .ok (joinLabels labels,
      nextAfter.getD (cur + 1)) := by
  have hlen := length_le_of_prefix_drop h (cons_ne_nil _ _)
  rw [length_singleton] at hlen
  have hbyte : msg[cur]? = some 0 := getElem?_of_prefix_drop h Nat.zero_lt_one
  rw [readNameLoop, dif_neg (by omega), hbyte]
  rfl

theorem readNameLoop_label {l : Bytes} (hl : IsLabel l) (h : labelBytes l <+: msg.drop cur) :
    readNameLoop msg cur labels nextAfter jumps =
      readNameLoop msg (cur + 1 + l.length) (labels ++ [l]) nextAfter jumps := by
  have hlen := length_le_of_prefix_drop h (cons_ne_nil _ _)
  rw [labelBytes, length_cons] at hlen
  have hbyte : msg[cur]? = some (UInt8.ofNat l.length) := getElem?_of_prefix_drop h (Nat.succ_pos _)
  have hpos := length_pos_iff.mpr hl.ne_nil
  have hnat : (UInt8.ofNat l.length).toNat = l.length := by
    rw [UInt8.toNat_ofNat']
    exact Nat.mod_eq_of_lt (by have := hl.length_le; omega)
  have hmask : ∀ n < 64, n &&& 0xc0 ≠ 0xc0 := by decide
  have hslice : slice msg (cur + 1) (cur + 1 + l.length) = .ok l := by
    obtain ⟨rest, hrest⟩ := h
    rw [slice_of_le (Nat.le_add_right _ _) (by omega), Nat.add_sub_cancel_left,
      ← drop_drop, ← hrest]
    exact congrArg _ (take_left' rfl)
  have hlossy : fromUtf8Lossy l = l := fromUtf8Lossy_of_isValidUtf8 (isValidUtf8_of_ascii hl.ascii)
  rw [readNameLoop, dif_neg (by omega), hbyte, index_some, ok_bind]
  dsimp only
  rw [hnat, if_neg (hmask _ (Nat.lt_succ_of_le hl.length_le)), if_neg hpos.ne',
    if_neg (by omega), hslice, ok_bind, hlossy]

theorem readNameLoop_pointer {target : ℕ} (htarget : target < 2 ^ 14)
    (h : pointer target <+: msg.drop cur)
    (hjumps : jumps < 128) :
    readNameLoop msg cur labels nextAfter jumps =
      readNameLoop msg target labels (nextAfter.or (some (cur + 2))) (jumps + 1) := by
  have hpointer : pointer target = [UInt8.ofNat (0xc0 + target / 256),
      UInt8.ofNat (target % 256)] := by
    rw [pointer, beBytes, beBytes, beBytes, pow_one, pow_zero, Nat.div_one]
    congr 2
    · omega
    · rw [UInt8.ofNat_eq_iff_mod_eq_toNat, UInt8.toNat_ofNat']
      omega
  rw [hpointer] at h
  have hlen := length_le_of_prefix_drop h (cons_ne_nil _ _)
  have hbyte : msg[cur]? = some (UInt8.ofNat (0xc0 + target / 256)) :=
    getElem?_of_prefix_drop h Nat.zero_lt_two
  have hlow : msg[cur + 1]? = some (UInt8.ofNat (target % 256)) :=
    getElem?_of_prefix_drop h Nat.one_lt_two
  have hdiv : target / 256 < 64 := by omega
  have hhighNat : (UInt8.ofNat (0xc0 + target / 256)).toNat = 0xc0 + target / 256 := by
    rw [UInt8.toNat_ofNat']
    omega
  have hlowNat : (UInt8.ofNat (target % 256)).toNat = target % 256 := by
    rw [UInt8.toNat_ofNat']
    omega
  have hmask : ∀ n < 64, (0xc0 + n) &&& 0xc0 = 0xc0 ∧ (0xc0 + n) &&& 0x3f = n := by decide
  obtain ⟨hhigh, hsix⟩ := hmask _ hdiv
  have hptr : (target / 256) <<< 8 ||| target % 256 = target := by
    rw [← Nat.shiftLeft_add_eq_or_of_lt (Nat.mod_lt _ (by decide)), Nat.shiftLeft_eq]
    omega
  simp only [length_cons, length_nil] at hlen
  rw [readNameLoop, dif_neg (by omega), hbyte, index_some, ok_bind]
  dsimp only
  rw [hhighNat, if_pos hhigh, if_neg (by omega), hlow, index_some, ok_bind, dif_neg (by omega),
    hlowNat, hsix, hptr]

/-- The loop reads the rest of a name, and goes back to the offset behind the first pointer. -/
theorem NameAt.readNameLoop_eq {rest : List Bytes} (hname : NameAt msg pos rest count next)
    (hjumps : jumps + count ≤ 128) :
    readNameLoop msg pos labels nextAfter jumps = .ok (joinLabels (labels ++ rest),
      nextAfter.getD next) := by
  induction hname generalizing labels nextAfter jumps with
  | root h => rw [readNameLoop_root h, append_nil]
  | label hl h _ ih => rw [readNameLoop_label hl h, ih hjumps, append_assoc, singleton_append]
  | @pointer pos target rest count next htarget h _ ih =>
    rw [readNameLoop_pointer htarget h (by omega), ih (by omega)]
    cases nextAfter with
    | none => rfl
    | some next => rfl

theorem NameAt.readName_eq (hname : NameAt msg pos labels count next) (hjumps : count ≤ 128) :
    readName msg pos = .ok (joinLabels labels, next) :=
  hname.readNameLoop_eq (by rwa [Nat.zero_add])

/-! ### What encode_name writes -/

theorem joinLabels_concat (h : labels ≠ []) (l : Bytes) :
    joinLabels (labels ++ [l]) = joinLabels labels ++ dot :: l := by
  induction labels with
  | nil => exact absurd rfl h
  | cons l' labels ih =>
    by_cases hnil : labels = []
    · subst hnil
      rw [joinLabels, joinLabels, cons_append, nil_append, intercalate_cons_cons,
        intercalate_singleton, intercalate_singleton, append_assoc]
      rfl
    · rw [joinLabels, cons_append, intercalate_cons_of_ne_nil (by simp), ← joinLabels,
        ih hnil, joinLabels,
        joinLabels, intercalate_cons_of_ne_nil hnil, append_assoc, append_assoc, append_assoc]

/-- The labels are those pieces of a name that are not empty. -/
theorem filter_splitOn_joinLabels (h : ∀ l ∈ labels, IsLabel l) {root : Bytes}
    (hroot : root = [] ∨ root = [dot]) :
    ((joinLabels labels ++ root).splitOn dot).filter (· ≠ []) = labels := by
  have hpieces (pieces : List Bytes) (hne : pieces ≠ [])
      (hmem : ∀ l ∈ pieces, l ∈ labels ∨ l = []) :
      (joinLabels pieces).splitOn dot = pieces := by
    refine List.splitOn_intercalate dot (fun l hl => ?_) hne
    obtain hl | rfl := hmem l hl
    · exact (h l hl).dot_notMem
    · exact List.not_mem_nil
  have hlabels : labels.filter (· ≠ []) = labels :=
    List.filter_eq_self.mpr fun l hl => decide_eq_true (h l hl).ne_nil
  by_cases hnil : labels = []
  · subst hnil
    obtain rfl | rfl := hroot
    · rfl
    · rfl
  obtain rfl | rfl := hroot
  · rw [List.append_nil, hpieces labels hnil fun l hl => .inl hl, hlabels]
  · have hlast : joinLabels labels ++ [dot] = joinLabels (labels ++ [[]]) :=
      (joinLabels_concat hnil []).symm
    rw [hlast, hpieces _ (by simp) fun l hl =>
      (List.mem_append.mp hl).imp_right List.mem_singleton.mp,
      List.filter_append, hlabels]
    exact List.append_nil labels

theorem foldlM_encodeLabel {pieces : List Bytes} (h : ∀ l ∈ pieces, l.length ≤ 63) (buf : Bytes) :
    pieces.foldlM encodeLabel buf = .ok (buf ++ (pieces.filter (· ≠ [])).flatMap labelBytes) := by
  induction pieces generalizing buf with
  | nil => exact congrArg Outcome.ok (append_nil buf).symm
  | cons l pieces ih =>
    obtain ⟨hl, hpieces⟩ := forall_mem_cons.mp h
    rw [foldlM_cons, encodeLabel]
    by_cases hnil : l = []
    · rw [if_pos hnil, ok_bind, ih hpieces, filter_cons_of_neg (by simpa using hnil)]
    · rw [if_neg hnil, if_neg (not_lt.mpr hl), ok_bind, ih hpieces,
        filter_cons_of_pos (by simpa using hnil), flatMap_cons, append_assoc]
      rfl

/-- The labels of a name are written, whether or not it has the dot of the root. -/
theorem encodeName_joinLabels (h : ∀ l ∈ labels, IsLabel l) {root : Bytes}
    (hroot : root = [] ∨ root = [dot])
    (buf : Bytes) : encodeName (joinLabels labels ++ root) buf =
    .ok (buf ++ labels.flatMap labelBytes ++ [0]) := by
  have hfilter := filter_splitOn_joinLabels h hroot
  have hlength : ∀ l ∈ (joinLabels labels ++ root).splitOn dot, l.length ≤ 63 := fun l hl => by
    by_cases hnil : l = []
    · exact hnil ▸ Nat.zero_le 63
    · refine (h l ?_).length_le
      rw [← hfilter]
      exact mem_filter.mpr ⟨hl, decide_eq_true hnil⟩
  rw [encodeName, foldlM_encodeLabel hlength, ok_bind, hfilter]

theorem stripRootDot_joinLabels (h : ∀ l ∈ labels, IsLabel l) :
    stripRootDot (joinLabels labels) = joinLabels labels := by
  rw [stripRootDot, rdropWhile_eq_self_iff]
  intro hne
  obtain rfl | ⟨init, l, rfl⟩ := eq_nil_or_concat' labels
  · exact absurd rfl hne
  have hl : IsLabel l := h l (mem_append_right _ mem_cons_self)
  have hlast : (joinLabels (init ++ [l])).getLast hne = l.getLast hl.ne_nil := by
    by_cases hnil : init = []
    · subst hnil
      simp only [joinLabels, nil_append, intercalate_singleton]
    · simp only [joinLabels_concat hnil]
      rw [getLast_append_of_right_ne_nil _ _ (cons_ne_nil _ _), getLast_cons hl.ne_nil]
  rw [hlast, decide_eq_true_iff]
  exact fun heq => hl.dot_notMem (heq ▸ getLast_mem hl.ne_nil)

/-! ### A response and what was written to it -/

/-- A name is appended to a message: its labels one by one, and where it goes on in a complete copy
of what is left, a pointer to that copy. -/
inductive WritesName : Bytes → List Bytes → ℕ → Bytes → Prop where
  | root {out : Bytes} : WritesName out [] 0 (out ++ [0])
  | label {out out' l : Bytes} {labels : List Bytes} {jumps : ℕ} (hl : IsLabel l)
      (hrest : WritesName (out ++ labelBytes l) labels jumps out') :
      WritesName out (l :: labels) jumps out'
  | pointer {out : Bytes} {target : ℕ} {labels : List Bytes} {jumps next : ℕ}
    (htarget : target < 2 ^ 14)
      (hcopy : NameAt out target labels jumps next) :
      WritesName out labels (jumps + 1) (out ++ pointer target)

/-- `n.to_be_bytes()` -/
def be16 (n : UInt16) : Bytes := beBytes 2 n.toNat

def be32 (n : UInt32) : Bytes := beBytes 4 n.toNat

structure Question where
  name : List Bytes
  qtype : UInt16
  qclass : UInt16

/-- What a record says. Records of the other types have bytes that are not looked at. -/
inductive Rdata where
  | srv (priority weight port : UInt16) (target : List Bytes)
  | mx (preference : UInt16) (exchange : List Bytes)
  | other (rtype : UInt16) (hsrv : rtype ≠ qtypeSrv) (hmx : rtype ≠ qtypeMx) (bytes : Bytes)

def Rdata.rtype : Rdata → UInt16
  | srv _ _ _ _ => qtypeSrv
  | mx _ _ => qtypeMx
  | other rtype _ _ _ => rtype

structure ResourceRecord where
  owner : List Bytes
  rclass : UInt16
  ttl : UInt32
  rdata : Rdata

/-- The answer a record gives to a query for a type. -/
def Rdata.answer (qtype : UInt16) : Rdata → Option DnsRecord
  | srv _ _ port target => if qtypeSrv = qtype then some ⟨joinLabels target, port⟩ else none
  | mx _ exchange => if qtypeMx = qtype then some ⟨joinLabels exchange, 0⟩ else none
  | other _ _ _ _ => none

inductive WritesQuestion : Bytes → Question → Bytes → Prop where
  | mk {out out' : Bytes} {q : Question} {jumps : ℕ} (hname : WritesName out q.name jumps out')
    (hjumps : jumps ≤ 128) :
      WritesQuestion out q (out' ++ (be16 q.qtype ++ be16 q.qclass))

inductive WritesRdata : Bytes → Rdata → Bytes → Prop where
  | srv {out out' : Bytes} {priority weight port : UInt16} {target : List Bytes} {jumps : ℕ}
      (hname : WritesName (out ++ (be16 priority ++ be16 weight ++ be16 port)) target jumps out')
      (hjumps : jumps ≤ 128) : WritesRdata out (.srv priority weight port target) out'
  | mx {out out' : Bytes} {preference : UInt16} {exchange : List Bytes} {jumps : ℕ}
      (hname : WritesName (out ++ be16 preference) exchange jumps out') (hjumps : jumps ≤ 128) :
      WritesRdata out (.mx preference exchange) out'
  | other {out bytes : Bytes} {rtype : UInt16} {hsrv : rtype ≠ qtypeSrv} {hmx : rtype ≠ qtypeMx} :
      WritesRdata out (.other rtype hsrv hmx bytes) (out ++ bytes)

/-- The fields between the owner and the data of a record. -/
def recordHeader (r : ResourceRecord) (rdlength : UInt16) : Bytes :=
  be16 r.rdata.rtype ++ be16 r.rclass ++ be32 r.ttl ++ be16 rdlength

inductive WritesRecord : Bytes → ResourceRecord → Bytes → Prop where
  | mk {out mid out' : Bytes} {r : ResourceRecord} {jumps : ℕ} {rdlength : UInt16}
      (howner : WritesName out r.owner jumps mid) (hjumps : jumps ≤ 128)
      (hrdata : WritesRdata (mid ++ recordHeader r rdlength) r.rdata out')
      (hrdlength : out'.length = mid.length + 10 + rdlength.toNat) : WritesRecord out r out'

/-- Items are appended one after the other. -/
inductive WritesAll {α : Type} (writes : Bytes → α → Bytes → Prop) : Bytes → List α →
    Bytes → Prop where
  | nil {out : Bytes} : WritesAll writes out [] out
  | cons {out mid out' : Bytes} {a : α} {as : List α} (ha : writes out a mid)
    (has : WritesAll writes mid as out') :
      WritesAll writes out (a :: as) out'

/-- A response to a query: its questions and its answers, and whatever the message has behind
them. -/
structure IsResponse (id : UInt16) (questions : List Question) (records : List ResourceRecord)
    (msg : Bytes) : Prop where
  questions_lt : questions.length < 2 ^ 16
  records_lt : records.length < 2 ^ 16
  sections : ∃ (flags nscount arcount : UInt16) (mid out : Bytes),
    WritesAll WritesQuestion
      (be16 id ++ be16 flags ++ beBytes 2 questions.length ++ beBytes 2 records.length ++
        be16 nscount ++ be16 arcount)
      questions mid ∧
    WritesAll WritesRecord mid records out ∧ out <+: msg

/-! ### Reading what was written -/

variable {out out' : Bytes}

theorem prefix_drop_of_append {bytes : Bytes} (h : out ++ bytes <+: msg) :
    bytes <+: msg.drop out.length := by
  obtain ⟨rest, rfl⟩ := h
  rw [append_assoc, drop_left]
  exact prefix_append _ _

theorem prefix_drop_add {first second : Bytes} (h : first ++ second <+: msg.drop cur) :
    second <+: msg.drop (cur + first.length) := by
  rw [← drop_drop]
  exact prefix_drop_of_append h

theorem readU16_of_prefix_drop {n : UInt16} (h : be16 n <+: msg.drop cur) :
    readU16 msg cur = .ok n := by
  have hnat : beNat (be16 n) = n.toNat := by
    rw [be16, beNat_beBytes]
    exact Nat.mod_eq_of_lt n.toNat_lt
  have hbytes : be16 n = [UInt8.ofNat (n.toNat / 256), UInt8.ofNat n.toNat] := by
    rw [be16, beBytes, beBytes, beBytes, pow_one, pow_zero, Nat.div_one]
  have hhigh : msg[cur]? = some (UInt8.ofNat (n.toNat / 256)) :=
    (getElem?_of_prefix_drop h (Nat.zero_lt_two)).trans (by rw [hbytes]; rfl)
  have hlow : msg[cur + 1]? = some (UInt8.ofNat n.toNat) :=
    (getElem?_of_prefix_drop h (Nat.one_lt_two)).trans (by rw [hbytes]; rfl)
  rw [readU16, hhigh, hlow, index_some, ok_bind, index_some, ok_bind, ← hbytes, hnat,
    UInt16.ofNat_toNat]

theorem WritesName.isPrefix (h : WritesName out labels count out') : out <+: out' := by
  induction h with
  | root => exact prefix_append _ _
  | label _ _ ih => exact (prefix_append _ _).trans ih
  | pointer _ _ => exact prefix_append _ _

/-- A name that was written stands in the message. -/
theorem WritesName.nameAt (h : WritesName out labels count out') (hmsg : out' <+: msg) :
    NameAt msg out.length labels count out'.length := by
  induction h with
  | root =>
    rw [length_append]
    exact .root (prefix_drop_of_append hmsg)
  | label hl hrest ih =>
    refine .label hl (prefix_drop_of_append (hrest.isPrefix.trans hmsg)) ?_
    have hnext := ih hmsg
    rwa [length_append, labelBytes, length_cons, Nat.add_comm _ 1, ← Nat.add_assoc] at hnext
  | pointer htarget hcopy =>
    rw [length_append]
    exact .pointer htarget (prefix_drop_of_append hmsg)
      (hcopy.mono ((prefix_append _ _).trans hmsg))

/-- Where a name was written, it is read, and the reader goes on behind it. -/
theorem WritesName.readName_eq (h : WritesName out labels count out') (hjumps : count ≤ 128)
    (hmsg : out' <+: msg) : readName msg out.length = .ok (joinLabels labels, out'.length) :=
  (h.nameAt hmsg).readName_eq hjumps

theorem WritesName.isLabel (h : WritesName out labels count out') : ∀ l ∈ labels, IsLabel l :=
  (h.nameAt prefix_rfl).isLabel

/-- What `encode_name` writes is a name without pointers. -/
theorem writesName_labels (h : ∀ l ∈ labels, IsLabel l) (buf : Bytes) :
    WritesName buf labels 0 (buf ++ labels.flatMap labelBytes ++ [0]) := by
  induction labels generalizing buf with
  | nil =>
    rw [flatMap_nil, append_nil]
    exact .root
  | cons l labels ih =>
    obtain ⟨hl, hlabels⟩ := forall_mem_cons.mp h
    have hrest := ih hlabels (buf ++ labelBytes l)
    rw [append_assoc buf] at hrest
    exact .label hl hrest

theorem WritesAll.isPrefix {α : Type} {writes : Bytes → α → Bytes → Prop} {as : List α}
    (hwrites : ∀ out a out', writes out a out' → out <+: out') (h : WritesAll writes out as out') :
    out <+: out' := by
  induction h with
  | nil => exact prefix_rfl
  | cons ha _ ih => exact (hwrites _ _ _ ha).trans ih

theorem WritesQuestion.isPrefix {q : Question} (h : WritesQuestion out q out') : out <+: out' := by
  obtain ⟨hname, -⟩ := h
  exact hname.isPrefix.trans (prefix_append _ _)

theorem WritesRdata.isPrefix {rdata : Rdata} (h : WritesRdata out rdata out') : out <+: out' := by
  cases h with
  | srv hname _ => exact (prefix_append _ _).trans hname.isPrefix
  | mx hname _ => exact (prefix_append _ _).trans hname.isPrefix
  | other => exact prefix_append _ _

theorem WritesRecord.isPrefix {r : ResourceRecord} (h : WritesRecord out r out') :
    out <+: out' := by
  obtain ⟨howner, -, hrdata, -⟩ := h
  exact howner.isPrefix.trans ((prefix_append _ _).trans hrdata.isPrefix)

theorem skipQuestions_of_writes {questions : List Question}
    (h : WritesAll WritesQuestion out questions out')
    (hmsg : out' <+: msg) : skipQuestions msg questions.length out.length = .ok out'.length := by
  induction h with
  | nil => rfl
  | @cons out mid out' q questions hq hrest ih =>
    have hmid : mid <+: msg := (hrest.isPrefix fun _ _ _ => WritesQuestion.isPrefix).trans hmsg
    obtain ⟨hname, hjumps⟩ := hq
    have hlen := hmid.length_le
    rw [length_append, show (be16 q.qtype ++ be16 q.qclass).length = 4 from rfl] at hlen ih
    rw [length_cons, skipQuestions, hname.readName_eq hjumps ((prefix_append _ _).trans hmid),
      ok_bind]
    dsimp only
    rw [if_neg (not_lt.mpr hlen), ih hmsg]

/-- The data of a record give its answer. -/
theorem parseRdata_of_writes {rdata : Rdata} (h : WritesRdata out rdata out')
    (hmsg : out' <+: msg) :
    parseRdata msg out.length rdata.rtype = .ok (rdata.answer rdata.rtype) := by
  cases h with
  | @srv _ priority weight port target _ hname hjumps =>
    have hfields := hname.isPrefix.trans hmsg
    have hlen := hfields.length_le
    rw [length_append, show (be16 priority ++ be16 weight ++ be16 port).length = 6 from rfl] at hlen
    have hport : readU16 msg (out.length + 4) = .ok port :=
      readU16_of_prefix_drop (prefix_drop_add (prefix_drop_of_append hfields))
    have htarget := hname.readName_eq hjumps hmsg
    rw [length_append, show (be16 priority ++ be16 weight ++ be16 port).length =
      6 from rfl] at htarget
    rw [parseRdata, Rdata.rtype, if_pos rfl, if_neg (not_lt.mpr hlen), hport, ok_bind,
      htarget, ok_bind]
    dsimp only
    rw [stripRootDot_joinLabels hname.isLabel, Rdata.answer, if_pos rfl]
  | @mx _ preference exchange _ hname hjumps =>
    have hlen := (hname.isPrefix.trans hmsg).length_le
    rw [length_append, show (be16 preference).length = 2 from rfl] at hlen
    have hexchange := hname.readName_eq hjumps hmsg
    rw [length_append, show (be16 preference).length = 2 from rfl] at hexchange
    rw [parseRdata, Rdata.rtype, if_neg (by decide), if_pos rfl, if_neg (not_lt.mpr hlen),
      hexchange, ok_bind]
    dsimp only
    rw [stripRootDot_joinLabels hname.isLabel, Rdata.answer, if_pos rfl]
  | @other bytes rtype hsrv hmx =>
    rw [parseRdata, Rdata.rtype, if_neg hsrv, if_neg hmx, Rdata.answer]

theorem Rdata.answer_of_ne {rdata : Rdata} {qtype : UInt16} (h : rdata.rtype ≠ qtype) :
    rdata.answer qtype = none := by
  cases rdata with
  | srv => exact if_neg h
  | mx => exact if_neg h
  | other => rfl

theorem WritesRecord.exists_owner {r : ResourceRecord} (h : WritesRecord out r out') :
    ∃ (mid : Bytes) (rdlength : UInt16) (jumps : ℕ), WritesName out r.owner jumps mid ∧
    jumps ≤ 128 ∧
      WritesRdata (mid ++ recordHeader r rdlength) r.rdata out' ∧
      out'.length = mid.length + 10 + rdlength.toNat := by
  obtain ⟨howner, hjumps, hrdata, hrdlength⟩ := h
  exact ⟨_, _, _, howner, hjumps, hrdata, hrdlength⟩

/-- The records of the type of the query are answered, in their order. -/
theorem readRecords_of_writes {rs : List ResourceRecord} (h : WritesAll WritesRecord out rs out')
    (hmsg : out' <+: msg) (qtype : UInt16) (records : List DnsRecord) :
    readRecords msg qtype rs.length out.length records =
      .ok (records ++ rs.filterMap fun r => r.rdata.answer qtype) := by
  induction h generalizing records with
  | nil => exact congrArg Outcome.ok (append_nil records).symm
  | @cons out next out' r rs hr hrest ih =>
    have hnext : next <+: msg := (hrest.isPrefix fun _ _ _ => WritesRecord.isPrefix).trans hmsg
    obtain ⟨mid, rdlength, _, howner, hjumps, hrdata, hrdlength⟩ := hr.exists_owner
    have hheader := hrdata.isPrefix.trans hnext
    have hlenHeader : (recordHeader r rdlength).length = 10 := rfl
    have hmid : mid <+: msg := (prefix_append _ _).trans hheader
    have hlen := hheader.length_le
    rw [length_append, hlenHeader] at hlen
    have hfields := prefix_drop_of_append hheader
    have hrtype : readU16 msg mid.length = .ok r.rdata.rtype :=
      readU16_of_prefix_drop ((prefix_append _ _).trans (by
        rw [recordHeader, append_assoc, append_assoc] at hfields
        exact hfields))
    have hrdlen : readU16 msg (mid.length + 8) = .ok rdlength :=
      readU16_of_prefix_drop (@prefix_drop_add _ _ (be16 r.rdata.rtype ++ be16 r.rclass ++
        be32 r.ttl) _ hfields)
    have hdata := parseRdata_of_writes hrdata hnext
    rw [length_append, hlenHeader] at hdata
    have hend := hnext.length_le
    rw [hrdlength] at hend ih
    rw [length_cons, readRecords, howner.readName_eq hjumps hmid, ok_bind]
    dsimp only
    rw [if_neg (not_lt.mpr hlen), hrtype, ok_bind, hrdlen, ok_bind, if_neg (not_lt.mpr hend),
      filterMap_cons]
    by_cases hqtype : r.rdata.rtype = qtype
    · subst hqtype
      rw [if_pos rfl, hdata, ok_bind, ih hmsg]
      cases r.rdata.answer r.rdata.rtype with
      | none => rw [Option.toList_none, append_nil]
      | some record => rw [Option.toList_some, append_assoc, singleton_append]
    · rw [if_neg hqtype, ih hmsg, Rdata.answer_of_ne hqtype]

theorem IsResponse.parseAnswers_eq {id : UInt16} {questions : List Question}
    {records : List ResourceRecord}
    (h : IsResponse id questions records msg) (qtype : UInt16) :
    parseAnswers msg id qtype = .ok (records.filterMap fun r => r.rdata.answer qtype) := by
  obtain ⟨hquestions, hrecords, flags, nscount, arcount, mid, out, hwriteQuestions,
    hwriteRecords, hmsg⟩ := h
  have hmid : mid <+: msg := (hwriteRecords.isPrefix fun _ _ _ => WritesRecord.isPrefix).trans hmsg
  have hheader := (hwriteQuestions.isPrefix fun _ _ _ => WritesQuestion.isPrefix).trans hmid
  have hcount {n : ℕ} (hn : n < 2 ^ 16) : beBytes 2 n = be16 (UInt16.ofNat n) ∧
      (UInt16.ofNat n).toNat = n := by
    have hnat : (UInt16.ofNat n).toNat = n := by
      rw [UInt16.toNat_ofNat']
      exact Nat.mod_eq_of_lt hn
    exact ⟨by rw [be16, hnat], hnat⟩
  obtain ⟨hqdBytes, hqdcount⟩ := hcount hquestions
  obtain ⟨hanBytes, hancount⟩ := hcount hrecords
  rw [hqdBytes, hanBytes] at hheader hwriteQuestions
  -- the six words of the header
  have hwords : be16 id ++ (be16 flags ++ (be16 (UInt16.ofNat questions.length) ++
      (be16 (UInt16.ofNat records.length) ++ (be16 nscount ++ be16 arcount)))) <+: msg.drop 0 := by
    simpa only [append_assoc, drop_zero] using hheader
  have hid : readU16 msg 0 = .ok id := readU16_of_prefix_drop ((prefix_append _ _).trans hwords)
  have hafter := prefix_drop_add (prefix_drop_add hwords)
  have hqd : readU16 msg 4 = .ok (UInt16.ofNat questions.length) :=
    readU16_of_prefix_drop ((prefix_append _ _).trans hafter)
  have han : readU16 msg 6 = .ok (UInt16.ofNat records.length) :=
    readU16_of_prefix_drop ((prefix_append _ _).trans (prefix_drop_add hafter))
  have hlen : headerLen ≤ msg.length := hheader.length_le
  have hskip : skipQuestions msg questions.length headerLen = .ok mid.length :=
    skipQuestions_of_writes hwriteQuestions hmid
  rw [parseAnswers, if_neg (not_lt.mpr hlen), hid, ok_bind, if_neg (not_not.mpr rfl), hqd,
    ok_bind, han,
    ok_bind, hqdcount, hancount, hskip, ok_bind, readRecords_of_writes hwriteRecords hmsg,
    nil_append]

/-- No message makes `parse_answers` panic. The answers of a response are the records of the type of
the query, however its names were compressed, and `read_name` reads what `encode_name` wrote. -/
theorem parseAnswers_exact :
    (∀ (response : Bytes) (queryId qtype : UInt16),
      ¬ (parseAnswers response queryId qtype).Panics) ∧
    (∀ (id qtype : UInt16) (questions : List Question) (records : List ResourceRecord)
      (response : Bytes), IsResponse id questions records response →
      parseAnswers response id qtype = .ok (records.filterMap fun r => r.rdata.answer qtype)) ∧
    (∀ labels : List Bytes, (∀ l ∈ labels, IsLabel l) → ∀ root : Bytes, root = [] ∨ root = [dot] →
      ∀ buf rest : Bytes, ∃ buf', encodeName (joinLabels labels ++ root) buf = .ok buf' ∧
        readName (buf' ++ rest) buf.length = .ok (joinLabels labels, buf'.length)) := by
  refine ⟨not_panics_parseAnswers, fun id qtype questions records response h =>
    h.parseAnswers_eq qtype,
    fun labels hlabels root hroot buf rest => ⟨_, encodeName_joinLabels hlabels hroot buf, ?_⟩⟩
  exact (writesName_labels hlabels buf).readName_eq (Nat.zero_le _) (prefix_append _ _)

/-- A question for the services of `_a.b` and two answers: the service `c._a.b`, and a mail
exchanger, which was not asked for. The names of the answers are pointers into the question, or end
in one. -/
theorem parseAnswers_compressed :
    parseAnswers
        ([0, 7, 0x81, 0x80, 0, 1, 0, 2, 0, 0, 0, 0] ++ [2, 95, 97, 1, 98, 0, 0, 33, 0, 1] ++
          [0xc0, 12, 0, 33, 0, 1, 0, 0, 0, 60, 0, 10, 0, 1, 0, 2, 0, 80, 1, 99, 0xc0, 12] ++
          [0xc0, 15, 0, 15, 0, 1, 0, 0, 0, 60, 0, 4, 0, 10, 0xc0, 12])
        7 33 = .ok [⟨[99, 46, 95, 97, 46, 98], 80⟩] := by
  have hdot : dot = 46 := rfl
  have ha : IsLabel [95, 97] := ⟨by decide, by decide, by simp, by rw [hdot]; decide⟩
  have hb : IsLabel [98] := ⟨by decide, by decide, by simp, by rw [hdot]; decide⟩
  have hc : IsLabel [99] := ⟨by decide, by decide, by simp, by rw [hdot]; decide⟩
  have hquestion := @WritesQuestion.mk (be16 7 ++ be16 0x8180 ++ beBytes 2 1 ++ beBytes 2 2 ++
    be16 0 ++ be16 0) _ ⟨[[95, 97], [98]], 33, 1⟩ 0 (.label ha (.label hb .root)) (Nat.zero_le _)
  generalize hout : _ ++ (be16 _ ++ be16 _) = out at hquestion
  have hname : NameAt out 12 [[95, 97], [98]] 0 18 := by
    subst hout
    exact .label ha (by decide) (.label hb (by decide) (.root (by decide)))
  have hlast : NameAt out 15 [[98]] 0 18 := by
    subst hout
    exact .label hb (by decide) (.root (by decide))
  -- a copy of either name in what was written so far
  have hcopy {out' : Bytes} (h : out <+: out') : WritesName out' [[95, 97],
      [98]] 1 (out' ++ pointer 12) :=
    .pointer (by decide) (hname.mono h)
  have hcopyLast {out' : Bytes} (h : out <+: out') :
      WritesName out' [[98]] 1 (out' ++ pointer 15) :=
    .pointer (by decide) (hlast.mono h)
  subst hout
  have hjumps : (1 : ℕ) ≤ 128 := by decide
  have hservice := @WritesRecord.mk _ _ _ ⟨[[95, 97], [98]], 1, 60,
    .srv 1 2 80 [[99], [95, 97], [98]]⟩ _ 10
    (hcopy prefix_rfl) hjumps (.srv (.label hc (hcopy (by decide))) hjumps) rfl
  have hexchange := @WritesRecord.mk _ _ _ ⟨[[98]], 1, 60, .mx 10 [[95, 97], [98]]⟩ _ 4
    (hcopyLast hservice.isPrefix) hjumps (.mx (hcopy (by decide)) hjumps) rfl
  refine parseAnswers_exact.2.1 7 33 [_] [_, _] _
    ⟨?_, ?_, 0x8180, 0, 0, _, _, .cons hquestion .nil, .cons hservice (.cons hexchange .nil), ?_⟩
  · decide
  · decide
  · decide

end Esmetrics.Esmagent.Dns
