import Esmetrics.Http.Query
import Esmetrics.Lib.Multimap

/-!
# The query arguments of a target

Model of the query arguments in `esm-auth/src/route.rs`: decoded into a sorted map of lists, merged
with the arguments of a request, and encoded again.

Encoded arguments are read back as they are (`parseQuery_encodeMultimap`), and the merged arguments
are the ones of the backend together with those of the client under keys the backend does not have,
or that are listed (`getD_mergeQuery`).
-/

namespace Esmetrics.Auth

open List

open Http

/-- The arguments of a query string by their keys. -/
def decodeMultimap (rawQuery : Bytes) : Multimap Bytes Bytes :=
  Multimap.ofArgs (parseQuery rawQuery)

/-- The arguments of a client are added, unless the target has their key and it is not listed. -/
def mergeQuery (targetQuery clientQuery : Bytes) (mergeQueryArgs : List Bytes) :
    Multimap Bytes Bytes :=
  let merged := decodeMultimap targetQuery
  let targetKeys := merged
  (parseQuery clientQuery).foldl
    (fun merged arg =>
      if targetKeys.contains arg.1 && !mergeQueryArgs.contains arg.1 then merged
      else merged.push arg.1 arg.2)
    merged

/-- The bytes that stay as they are in a component. -/
def isUnreserved (b : UInt8) : Bool :=
  ('A'.toUInt8 ≤ b && b ≤ 'Z'.toUInt8) || ('a'.toUInt8 ≤ b && b ≤ 'z'.toUInt8) ||
    ('0'.toUInt8 ≤ b && b ≤ '9'.toUInt8) || b ∈ ascii "-_.~"

theorem isUnreserved_spec :
    ∀ c : UInt8, isUnreserved c = true → c < 0x80 ∧ c ∉ ascii "/?#" := by decide +kernel

def upperHexDigit (d : UInt8) : UInt8 := if d < 10 then '0'.toUInt8 + d else 'A'.toUInt8 + (d - 10)

def queryEscapeByte (b : UInt8) : Bytes :=
  if isUnreserved b then [b]
  else if b = ' '.toUInt8 then ['+'.toUInt8]
  else ['%'.toUInt8, upperHexDigit (b >>> 4), upperHexDigit (b &&& 15)]

/-- Encodes a component of a query string. -/
def queryEscape (s : Bytes) : Bytes := s.flatMap queryEscapeByte

def encodeArg (arg : Bytes × Bytes) : Bytes := queryEscape arg.1 ++ '='.toUInt8 :: queryEscape arg.2

/-- The query string of a map, key by key. -/
def encodeMultimap (m : Multimap Bytes Bytes) : Bytes :=
  ['&'.toUInt8].intercalate (m.toArgs.map encodeArg)

example : encodeMultimap (mergeQuery (ascii "password=abc&b")
    (ascii "password=hack&qqq=w w&a=%2F") []) =
    ascii "a=%2F&b=&password=abc&qqq=w+w" := by decide +kernel

/-! ### Components -/

theorem decodeBytes_queryEscapeByte (b : UInt8) (s : Bytes) :
    decodeBytes true (queryEscapeByte b ++ s) = b :: decodeBytes true s := by
  have hhex : ∀ b : UInt8, hexByte (upperHexDigit (b >>> 4)) (upperHexDigit (b &&& 15)) =
      some b := by
    decide +kernel
  have hplain : ∀ b : UInt8, isUnreserved b = true → b ≠ '+'.toUInt8 ∧ b ≠ '%'.toUInt8 := by
    decide +kernel
  rw [queryEscapeByte]
  split_ifs with hunreserved hspace
  · obtain ⟨hplus, hpercent⟩ := hplain b hunreserved
    rw [singleton_append, decodeBytes.eq_def]
    simp [hplus, hpercent]
  · rw [singleton_append, decodeBytes.eq_def, hspace]
    simp
  · have hpercent : '%'.toUInt8 ≠ '+'.toUInt8 := by decide
    rw [cons_append, cons_append, singleton_append, decodeBytes.eq_def]
    simp [hpercent, hhex b]

theorem decodeBytes_queryEscape (s : Bytes) : decodeBytes true (queryEscape s) = s := by
  induction s with
  | nil => rfl
  | cons b s ih => rw [queryEscape, flatMap_cons, decodeBytes_queryEscapeByte, ← queryEscape, ih]

/-- Nothing is decoded in a text without escapes. -/
theorem decodeBytes_eq_self {s : Bytes} (h : ∀ b ∈ s, b ≠ '%'.toUInt8 ∧ b ≠ '+'.toUInt8) :
    decodeBytes true s = s := by
  induction s with
  | nil => rfl
  | cons b s ih =>
    obtain ⟨hpercent, hplus⟩ := h b (mem_cons_self ..)
    rw [decodeBytes.eq_def]
    simp [hpercent, hplus, ih fun b hb => h b (mem_cons_of_mem _ hb)]

/-- An encoded component is decoded to itself. -/
theorem percentDecodePlus_queryEscape {s : Bytes} (h : isValidUtf8 s = true) :
    percentDecodePlus (queryEscape s) = s := by
  rw [percentDecodePlus, decode]
  split_ifs with hany
  · rw [decodeBytes_queryEscape, fromUtf8Lossy_of_isValidUtf8 h]
  · rw [Bool.not_eq_true, any_eq_false] at hany
    have hplain : decodeBytes true (queryEscape s) = queryEscape s :=
      decodeBytes_eq_self fun b hb => by simpa using hany b hb
    rw [← hplain, decodeBytes_queryEscape]

/-- No delimiter of a query string is in an encoded component. -/
theorem not_mem_queryEscape {c : UInt8} (hc : c ∈ ascii "&=#?/")
    (s : Bytes) : c ∉ queryEscape s := by
  have hbyte : ∀ c ∈ ascii "&=#?/", ∀ b : UInt8, c ∉ queryEscapeByte b := by decide +kernel
  intro hmem
  obtain ⟨b, -, hb⟩ := mem_flatMap.mp hmem
  exact hbyte c hc b hb

/-! ### Arguments -/

theorem parseArg_encodeArg {arg : Bytes × Bytes}
    (h : isValidUtf8 arg.1 = true ∧ isValidUtf8 arg.2 = true) : parseArg (encodeArg arg) = arg := by
  rw [encodeArg, parseArg, splitOnce_append (not_mem_queryEscape (by decide) arg.1),
    Option.getD_some, percentDecodePlus_queryEscape h.1, percentDecodePlus_queryEscape h.2]

theorem not_mem_encodeArg {c : UInt8} (hc : c ∈ ascii "&#?/") (arg : Bytes × Bytes) :
    c ∉ encodeArg arg := by
  have hesc : ∀ c ∈ ascii "&#?/", c ∈ ascii "&=#?/" ∧ c ≠ '='.toUInt8 := by decide +kernel
  rw [encodeArg, mem_append, mem_cons]
  rintro (hmem | heq | hmem)
  · exact not_mem_queryEscape (hesc c hc).1 _ hmem
  · exact (hesc c hc).2 heq
  · exact not_mem_queryEscape (hesc c hc).1 _ hmem

/-- Encoded arguments are read back as they are. -/
theorem parseQuery_intercalate {args : List (Bytes × Bytes)}
    (h : ∀ arg ∈ args, isValidUtf8 arg.1 = true ∧ isValidUtf8 arg.2 = true) :
    parseQuery (['&'.toUInt8].intercalate (args.map encodeArg)) = args := by
  rw [parseQuery_lineByLine.intercalate, flatMap_map]
  calc args.flatMap (fun arg => parseQuery (encodeArg arg))
      = args.flatMap fun arg => [arg] := flatMap_congr fun arg harg => by
        rw [parseQuery_of_not_mem (not_mem_encodeArg (by decide) arg) (by simp [encodeArg]),
          parseArg_encodeArg (h arg harg)]
    _ = args := flatMap_singleton' args

/-- An argument that is glued to the end of a text with a question mark is no longer there. -/
theorem not_mem_parseQuery_glued {value : Bytes} (hamp : '&'.toUInt8 ∉ value)
    (hmark : '?'.toUInt8 ∉ value) {s : Bytes} (hs : ([], value) ∉ parseQuery s) :
    ([], value) ∉ parseQuery (s ++ '?'.toUInt8 :: '='.toUInt8 :: value) := by
  have hliteral : IsLiteral '?'.toUInt8 := by
    unfold IsLiteral
    decide
  induction s using line_induction '&'.toUInt8 with
  | last l hl =>
    have hpiece : '&'.toUInt8 ∉ l ++ '?'.toUInt8 :: '='.toUInt8 :: value := by
      simp only [mem_append, mem_cons, not_or]
      exact ⟨hl, by decide, by decide, hamp⟩
    rw [parseQuery_of_not_mem hpiece (by simp), mem_singleton]
    intro heq
    rw [parseArg] at heq
    by_cases heqs : '='.toUInt8 ∈ l
    · -- the equals sign of the text before comes first, and the value keeps the question mark
      obtain ⟨x, y, rfl, hx⟩ := eq_append_cons_of_mem heqs
      rw [append_assoc, cons_append, splitOnce_append hx, Option.getD_some] at heq
      refine hmark ?_
      rw [(Prod.mk.inj heq).2]
      exact mem_decode hliteral (by decide) true y _
    · -- the key keeps the question mark
      have hkey : '='.toUInt8 ∉ l ++ ['?'.toUInt8] := by
        rw [mem_append, mem_singleton]
        exact fun hmem => hmem.elim heqs (by decide)
      rw [show l ++ '?'.toUInt8 :: '='.toUInt8 :: value =
        (l ++ ['?'.toUInt8]) ++ '='.toUInt8 :: value by simp, splitOnce_append hkey,
        Option.getD_some] at heq
      have hmem := mem_decode hliteral (by decide) true l []
      rw [← percentDecodePlus, ← (Prod.mk.inj heq).1] at hmem
      cases hmem
  | line l s hl ih =>
    rw [parseQuery_lineByLine.append, mem_append, not_or] at hs
    rw [append_assoc, cons_append, parseQuery_lineByLine.append, mem_append, not_or]
    exact ⟨hs.1, ih hs.2⟩

/-- The keys and values of a map are texts. -/
def IsText (m : Multimap Bytes Bytes) : Prop :=
  ∀ key, ∀ value ∈ m.getD key [], isValidUtf8 key = true ∧ isValidUtf8 value = true

theorem parseQuery_encodeMultimap {m : Multimap Bytes Bytes} (h : IsText m) :
    parseQuery (encodeMultimap m) = m.toArgs := by
  refine parseQuery_intercalate fun arg harg => h arg.1 arg.2 ?_
  rw [← Multimap.valuesOf_toArgs]
  exact mem_valuesOf.mpr harg

/-- A number sign is never in an encoded query string. -/
theorem not_mem_encodeMultimap (m : Multimap Bytes Bytes) : '#'.toUInt8 ∉ encodeMultimap m := by
  rw [encodeMultimap]
  induction m.toArgs with
  | nil => exact not_mem_nil
  | cons arg args ih =>
    have harg := not_mem_encodeArg (c := '#'.toUInt8) (by decide) arg
    cases args with
    | nil =>
      rw [map_singleton, intercalate_singleton]
      exact harg
    | cons arg' args =>
      rw [map_cons, map_cons, intercalate_cons_cons, mem_append, mem_append,
        mem_singleton, ← map_cons]
      rintro ((hmem | heq) | hmem)
      · exact harg hmem
      · exact absurd heq (by decide)
      · exact ih hmem

/-! ### Merging -/

/-- The merged values of a key. -/
theorem getD_mergeQuery (targetQuery clientQuery : Bytes) (mergeQueryArgs : List Bytes)
    (key : Bytes) :
    (mergeQuery targetQuery clientQuery mergeQueryArgs).getD key [] =
      valuesOf key (parseQuery targetQuery) ++
        if key ∈ (parseQuery targetQuery).map (·.1) ∧ key ∉ mergeQueryArgs then []
        else valuesOf key (parseQuery clientQuery) := by
  have hkept : mergeQuery targetQuery clientQuery mergeQueryArgs =
      ((parseQuery clientQuery).filter fun arg =>
          !((decodeMultimap targetQuery).contains arg.1 && !mergeQueryArgs.contains arg.1)).foldl
        (fun merged arg => merged.push arg.1 arg.2) (decodeMultimap targetQuery) := by
    rw [mergeQuery, foldl_filter]
    congr 1
    funext merged arg
    cases (decodeMultimap targetQuery).contains arg.1 && !mergeQueryArgs.contains arg.1 <;> rfl
  have hclash : ((decodeMultimap targetQuery).contains key && !mergeQueryArgs.contains key) = true ↔
      key ∈ (parseQuery targetQuery).map (·.1) ∧ key ∉ mergeQueryArgs := by
    rw [Bool.and_eq_true, Bool.not_eq_true', Std.ExtTreeMap.contains_iff_mem, decodeMultimap,
      Multimap.mem_ofArgs, contains_eq_mem, decide_eq_false_iff_not]
  rw [hkept, Multimap.getD_foldl_push,
    valuesOf_filter fun k => !((decodeMultimap targetQuery).contains k &&
      !mergeQueryArgs.contains k),
    decodeMultimap, Multimap.getD_ofArgs, ← decodeMultimap]
  split_ifs with hkeep hin hin
  · rw [Bool.not_eq_true', ← Bool.not_eq_true, hclash] at hkeep
    exact absurd hin hkeep
  · rfl
  · rfl
  · rw [Bool.not_eq_true', ← Bool.not_eq_true, hclash] at hkeep
    exact absurd hin hkeep

/-- The keys and values of merged arguments are texts. -/
theorem isText_mergeQuery {targetQuery clientQuery : Bytes}
    (htarget : isValidUtf8 targetQuery = true)
    (hclient : isValidUtf8 clientQuery = true) (mergeQueryArgs : List Bytes) :
    IsText (mergeQuery targetQuery clientQuery mergeQueryArgs) := by
  intro key value hvalue
  rw [getD_mergeQuery, mem_append] at hvalue
  obtain hvalue | hvalue := hvalue
  · exact isValidUtf8_of_mem_parseQuery htarget (mem_valuesOf.mp hvalue)
  · split_ifs at hvalue
    · cases hvalue
    · exact isValidUtf8_of_mem_parseQuery hclient (mem_valuesOf.mp hvalue)

/-- The values of a key in the encoded query string. -/
theorem valuesOf_encode_mergeQuery {targetQuery clientQuery : Bytes}
    (htarget : isValidUtf8 targetQuery = true) (hclient : isValidUtf8 clientQuery = true)
    (mergeQueryArgs : List Bytes) (key : Bytes) :
    valuesOf key (parseQuery (encodeMultimap (mergeQuery targetQuery clientQuery mergeQueryArgs))) =
      valuesOf key (parseQuery targetQuery) ++
        if key ∈ (parseQuery targetQuery).map (·.1) ∧ key ∉ mergeQueryArgs then []
        else valuesOf key (parseQuery clientQuery) := by
  rw [parseQuery_encodeMultimap (isText_mergeQuery htarget hclient mergeQueryArgs),
    Multimap.valuesOf_toArgs, getD_mergeQuery]

end Esmetrics.Auth
