import Esmetrics.Http.Query
import Esmetrics.Protoparser.FastFloat

/-!
# Request heads

Model of `parse_head_capturing` in `esm-http/src/request.rs`: the request line and the headers that
the endpoints use. The path is decoded, the query string is not.
-/

namespace Esmetrics.Http

inductive Method where
  | get
  | head
  | post
  | put
  | delete
  | options
  | patch
  | other
deriving DecidableEq

def Method.parse (s : Bytes) : Method :=
  if s = ascii "GET" then .get
  else if s = ascii "HEAD" then .head
  else if s = ascii "POST" then .post
  else if s = ascii "PUT" then .put
  else if s = ascii "DELETE" then .delete
  else if s = ascii "OPTIONS" then .options
  else if s = ascii "PATCH" then .patch
  else .other

inductive ContentEncoding where
  | identity
  | gzip
  | zstd
  | deflate
  | snappy
  | unsupported
deriving DecidableEq

/-- A parsed request head. -/
structure Head where
  method : Method
  path : Bytes
  query : Bytes
  host : Bytes
  contentLength : Option ℕ
  chunked : Bool
  contentEncoding : ContentEncoding
  contentEncodingRaw : Option Bytes
  contentType : Option Bytes
  acceptGzip : Bool
  keepAlive : Bool
  expectContinue : Bool
  allHeaders : List (Bytes × Bytes)
deriving DecidableEq

/-! ### Texts -/

/-- The lines of a text, which end at a carriage return with a line feed. -/
def splitCrlf : Bytes → List Bytes
  | [] => [[]]
  | [c] => [[c]]
  | c :: d :: s =>
    if c = 13 ∧ d = 10 then [] :: splitCrlf s
    else
      match splitCrlf (d :: s) with
      | [] => [[c]]
      | line :: lines => (c :: line) :: lines

/-- The encodings of the white space characters. -/
def whiteSpace : List Bytes :=
  [[9], [10], [11], [12], [13], [32], [0xC2, 0x85], [0xC2, 0xA0], [0xE1, 0x9A, 0x80]] ++
    ((List.range 11).map fun i => [0xE2, 0x80, 0x80 + i.toUInt8]) ++
    [[0xE2, 0x80, 0xA8], [0xE2, 0x80, 0xA9], [0xE2, 0x80, 0xAF], [0xE2, 0x81, 0x9F],
      [0xE3, 0x80, 0x80]]

/-- The text without the members of a list of words at its start, at most `n` of them. -/
def stripWords (words : List Bytes) : ℕ → Bytes → Bytes
  | 0, s => s
  | n + 1, s =>
    match words.find? (· <+: s) with
    | some w => stripWords words n (s.drop w.length)
    | none => s

/-- The text without white space around it. -/
def trim (s : Bytes) : Bytes :=
  let start := stripWords whiteSpace s.length s
  (stripWords (whiteSpace.map List.reverse) start.length start.reverse).reverse

def eqIgnoreAsciiCase (s t : Bytes) : Bool := Protoparser.eqIgnoreAsciiCase s t

/-- The text contains a word, apart from case. -/
def asciiContains (haystack needle : Bytes) : Bool :=
  haystack.tails.any fun s => eqIgnoreAsciiCase (s.take needle.length) needle

/-! ### The head -/

/-- The encoding that a header names. -/
def contentEncodingOf (value : Bytes) : ContentEncoding :=
  if eqIgnoreAsciiCase value (ascii "gzip") ∨ eqIgnoreAsciiCase value (ascii "x-gzip") then .gzip
  else if eqIgnoreAsciiCase value (ascii "zstd") then .zstd
  else if eqIgnoreAsciiCase value (ascii "deflate") then .deflate
  else if eqIgnoreAsciiCase value (ascii "snappy") then .snappy
  else if value = [] ∨ eqIgnoreAsciiCase value (ascii "none") ∨
      eqIgnoreAsciiCase value (ascii "identity") then .identity
  else .unsupported

/-- What the tokens of a header `Connection` say; the last one counts. -/
def connectionKeepAlive (value : Bytes) (keepAlive : Bool) : Bool :=
  (value.splitOn ','.toUInt8).foldl
    (fun keepAlive token =>
      let token := trim token
      if eqIgnoreAsciiCase token (ascii "close") then false
      else if eqIgnoreAsciiCase token (ascii "keep-alive") then true
      else keepAlive)
    keepAlive

/-- Reads a header, of which the white space around the value is cut off. -/
def applyHeader (head : Head) (name value : Bytes) : Option Head :=
  if eqIgnoreAsciiCase name (ascii "content-length") then
    match Protoparser.strParseU64 value with
    | none => none
    | some parsed =>
      if head.contentLength.any fun existing => existing ≠ parsed then none
      else some { head with contentLength := some parsed }
  else if eqIgnoreAsciiCase name (ascii "transfer-encoding") then
    if eqIgnoreAsciiCase value (ascii "chunked") then some { head with chunked := true } else none
  else if eqIgnoreAsciiCase name (ascii "content-encoding") then
    if head.contentEncodingRaw = none then
      some { head with
        contentEncodingRaw := some value
        contentEncoding := contentEncodingOf value }
    else some head
  else if eqIgnoreAsciiCase name (ascii "accept-encoding") then
    some { head with acceptGzip := asciiContains value (ascii "gzip") }
  else if eqIgnoreAsciiCase name (ascii "connection") then
    some { head with keepAlive := connectionKeepAlive value head.keepAlive }
  else if eqIgnoreAsciiCase name (ascii "expect") then
    if eqIgnoreAsciiCase value (ascii "100-continue") then some { head with expectContinue := true }
    else none
  else if eqIgnoreAsciiCase name (ascii "host") then some { head with host := value }
  else if eqIgnoreAsciiCase name (ascii "content-type") then
    if head.contentType = none then some { head with contentType := some value } else some head
  else some head

/-- Reads the lines of the headers. -/
def parseHeaders (capture : Bool) : Head → List Bytes → Option Head
  | head, [] => some head
  | head, line :: lines =>
    if line = [] then parseHeaders capture head lines
    else
      match splitOnce ':'.toUInt8 line with
      | none => none
      | some (name, value) =>
        let value := trim value
        let head :=
          if capture then { head with allHeaders := head.allHeaders ++ [(name, value)] } else head
        match applyHeader head name value with
        | none => none
        | some head => parseHeaders capture head lines

/-- Reads the request line. -/
def parseRequestLine (line : Bytes) : Option Head :=
  match line.splitOn ' '.toUInt8 with
  | [method, target, version] =>
    if target = [] then none
    else if version ≠ ascii "HTTP/1.1" ∧ version ≠ ascii "HTTP/1.0" then none
    else
      let (path, query) := (splitOnce '?'.toUInt8 target).getD (target, [])
      match percentDecodePath path with
      | none => none
      | some path =>
        some
          { method := Method.parse method
            path := path
            query := query
            host := []
            contentLength := none
            chunked := false
            contentEncoding := .identity
            contentEncodingRaw := none
            contentType := none
            acceptGzip := false
            keepAlive := decide (version = ascii "HTTP/1.1")
            expectContinue := false
            allHeaders := [] }
  | _ => none

/-- Parses the head of a request, up to and with its empty line. -/
def parseHeadCapturing (raw : Bytes) (capture : Bool) : Option Head :=
  if isValidUtf8 raw then
    match splitCrlf raw with
    | [] => none
    | requestLine :: lines =>
      match parseRequestLine requestLine with
      | none => none
      | some head =>
        match parseHeaders capture head lines with
        | none => none
        | some head =>
          some (if head.chunked then { head with contentLength := none } else head)
  else none

example : (parseHeadCapturing
    (ascii "GET /a%20b?x=1 HTTP/1.1\r\nHost: h\r\nContent-Length: 5\r\n\r\n") false).map
      (fun head => (head.path, head.query, head.host, head.contentLength, head.keepAlive)) =
    some (ascii "/a b", ascii "x=1", ascii "h", some 5, true) := by decide +kernel

/-! ### The target of a request -/

/-- The head that is returned, if any, has the target of another one. -/
def KeepsTarget (head : Head) (result : Option Head) : Prop :=
  ∀ head' ∈ result, head'.path = head.path ∧ head'.query = head.query

theorem KeepsTarget.none (head : Head) : KeepsTarget head none :=
  fun _ h => nomatch h

theorem KeepsTarget.some {head head' : Head} (hpath : head'.path = head.path)
    (hquery : head'.query = head.query) : KeepsTarget head (some head') := by
  intro result h
  obtain rfl := Option.some.inj h
  exact ⟨hpath, hquery⟩

variable {head : Head}

theorem KeepsTarget.ite {c : Prop} [Decidable c] {result result' : Option Head}
    (h : KeepsTarget head result)
    (h' : KeepsTarget head result') :
    KeepsTarget head (if c then result else result') := by
  by_cases hc : c
  · rwa [if_pos hc]
  · rwa [if_neg hc]

theorem keepsTarget_applyHeader (head : Head) (name value : Bytes) :
    KeepsTarget head (applyHeader head name value) := by
  -- a branch fails, or leaves the path and the query of the head
  have hsome {head' : Head} := @KeepsTarget.some head head'
  refine .ite ?_ <| .ite (.ite (hsome rfl rfl) (.none head)) <|
    .ite (.ite (hsome rfl rfl) (hsome rfl rfl)) <| .ite (hsome rfl rfl) <|
    .ite (hsome rfl rfl) <| .ite (.ite (hsome rfl rfl) (.none head)) <| .ite (hsome rfl rfl) <|
    .ite (.ite (hsome rfl rfl) (hsome rfl rfl)) (hsome rfl rfl)
  split
  · exact .none head
  · exact .ite (.none head) (hsome rfl rfl)

theorem applyHeader_target {head' : Head} {name value : Bytes}
    (h : applyHeader head name value = some head') :
    head'.path = head.path ∧ head'.query = head.query :=
  keepsTarget_applyHeader head name value head' h

/-- The headers do not change the target. -/
theorem parseHeaders_target {capture : Bool} {head' : Head} {lines : List Bytes}
    (h : parseHeaders capture head lines = some head') :
    head'.path = head.path ∧ head'.query = head.query := by
  induction lines generalizing head with
  | nil =>
    obtain rfl := Option.some.inj h
    exact ⟨rfl, rfl⟩
  | cons line lines ih =>
    rw [parseHeaders] at h
    by_cases hline : line = []
    · rw [if_pos hline] at h
      exact ih h
    · rw [if_neg hline] at h
      split at h
      · cases h
      · dsimp only at h
        split at h
        · cases h
        · rename_i hheader
          obtain ⟨hpath, hquery⟩ := ih h
          obtain ⟨hpath', hquery'⟩ := applyHeader_target hheader
          rw [hpath, hquery, hpath', hquery']
          cases capture <;> exact ⟨rfl, rfl⟩

/-- A text is one line, or a line and the text after its end. -/
theorem splitCrlf_cases (s : Bytes) : splitCrlf s = [s] ∨
    ∃ line rest, s = line ++ 13 :: 10 :: rest ∧ splitCrlf s = line :: splitCrlf rest := by
  induction s using splitCrlf.induct with
  | case1 => exact .inl rfl
  | case2 c => exact .inl rfl
  | case3 c d s hend _ =>
    obtain ⟨rfl, rfl⟩ := hend
    exact .inr ⟨[], s, rfl, rfl⟩
  | case4 c d s hend hnil ih =>
    obtain heq | ⟨line, rest, -, heq⟩ := ih
    · cases hnil.symm.trans heq
    · cases hnil.symm.trans heq
  | case5 c d s hend line lines hlines ih =>
    rw [splitCrlf, if_neg hend, hlines]
    obtain heq | ⟨line', rest, hs, heq⟩ := ih
    · obtain ⟨rfl, rfl⟩ := List.cons.inj (hlines.symm.trans heq)
      exact .inl rfl
    · obtain ⟨rfl, rfl⟩ := List.cons.inj (hlines.symm.trans heq)
      refine .inr ⟨c :: line, rest, ?_, rfl⟩
      rw [hs, List.cons_append]

theorem isValidUtf8_of_mem_splitCrlf {s line : Bytes} (h : isValidUtf8 s = true)
    (hline : line ∈ splitCrlf s) :
    isValidUtf8 line = true := by
  induction hn : s.length using Nat.strongRecOn generalizing s with
  | ind n ih =>
    obtain heq | ⟨first, rest, rfl, heq⟩ := splitCrlf_cases s
    · rw [heq, List.mem_singleton] at hline
      exact hline ▸ h
    · rw [isValidUtf8_append_cons (by decide)] at h
      have hrest : isValidUtf8 rest = true := by
        have hlf := (isValidUtf8_append_cons (s := []) (c := 10) (by decide)).mp h.2
        exact hlf.2
      rw [heq, List.mem_cons] at hline
      obtain rfl | hline := hline
      · exact h.1
      · rw [List.length_append, List.length_cons, List.length_cons] at hn
        exact ih rest.length (by omega) hrest hline rfl

/-- The query string of a request line is a text. -/
theorem isValidUtf8_query_of_requestLine {line : Bytes} (hline : isValidUtf8 line = true)
    (h : parseRequestLine line = some head) : isValidUtf8 head.query = true := by
  rw [parseRequestLine] at h
  split at h
  · rename_i method target version hsplit
    split_ifs at h
    have htarget : isValidUtf8 target = true :=
      isValidUtf8_of_mem_splitOn (c := ' '.toUInt8) (by decide) hline (by rw [hsplit]; simp)
    cases hcut : splitOnce '?'.toUInt8 target with
    | none =>
      rw [hcut] at h
      dsimp only [Option.getD_none] at h
      split at h
      · cases h
      · obtain rfl := Option.some.inj h
        rfl
    | some cut =>
      rw [hcut] at h
      dsimp only [Option.getD_some] at h
      split at h
      · cases h
      · obtain rfl := Option.some.inj h
        obtain ⟨heq, -⟩ := append_of_splitOnce (l := cut.1) (r := cut.2) hcut
        rw [heq, isValidUtf8_append_cons (by decide)] at htarget
        exact htarget.2
  · cases h

/-- The query string of a request is a text. -/
theorem isValidUtf8_query {raw : Bytes} {capture : Bool}
    (h : parseHeadCapturing raw capture = some head) :
    isValidUtf8 head.query = true := by
  rw [parseHeadCapturing] at h
  split_ifs at h with hraw
  split at h
  · cases h
  · rename_i line lines hsplit
    split at h
    · cases h
    · rename_i head₀ hline
      split at h
      · cases h
      · rename_i head₁ hheaders
        have hquery : head.query = head₀.query := by
          rw [← (parseHeaders_target hheaders).2, ← Option.some.inj h]
          split_ifs <;> rfl
        rw [hquery]
        refine isValidUtf8_query_of_requestLine (isValidUtf8_of_mem_splitCrlf hraw ?_) hline
        rw [hsplit]
        exact List.mem_cons_self ..

end Esmetrics.Http
