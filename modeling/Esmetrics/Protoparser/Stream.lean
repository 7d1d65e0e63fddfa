import Esmetrics.Lib.Utf8
import Esmetrics.Protoparser.Graphite
import Esmetrics.Protoparser.InfluxLine
import Esmetrics.Protoparser.Prometheus

/-!
# Reading a body by blocks of lines

Model of `read_lines_block` of `esm-protoparser/src/util.rs` and of the loop over its blocks in
`stream.rs`, `prometheus_stream.rs` and `graphite_stream.rs`. A reader delivers the body in the
pieces of its schedule, and the lengths of the buffers it is given are logged. A `Vec` is its
elements and its capacity; how much an allocator adds is not fixed.

The partial line carried from one call to the next is shorter than the buffer it is put into, and a
buffer that fills up grows, so that the reader is never given an empty one (`readLinesLoop_spec`). A
block ends at a line end, and what remains is the rest of the body (`readBlocks_spec`): the blocks
do not depend on the pieces except for where they end, and the rows of a valid body do not depend on
that. The stream loops check each block for itself whether it is UTF-8, and end at the first one
that is not (`parseStreamInternal_eq`), so that of another body the rows before it are taken, and
where it begins depends on the pieces.
-/

namespace Esmetrics.Protoparser

open List

/-- `b'\n'`. -/
def newline : UInt8 := '\n'.toUInt8

/-! ### Vectors -/

/-- How a vector of this capacity grows to hold so many elements. -/
structure Allocator where
  grow : ℕ → ℕ → ℕ
  le_grow : ∀ capacity n, n ≤ grow capacity n

/-- Just the elements that are needed. -/
def Allocator.exact : Allocator := ⟨fun _ n => n, fun _ _ => le_rfl⟩

structure Vec where
  data : Bytes
  capacity : ℕ
  length_le : data.length ≤ capacity

namespace Vec

/-- `Vec::new`. -/
def new : Vec := ⟨[], 0, le_rfl⟩

def clear (v : Vec) : Vec := ⟨[], v.capacity, Nat.zero_le _⟩

def reserve (alloc : Allocator) (v : Vec) (additional : ℕ) : Vec :=
  if v.capacity - v.data.length < additional then
    ⟨v.data, alloc.grow v.capacity (v.data.length + additional),
      (Nat.le_add_right _ _).trans (alloc.le_grow _ _)⟩
  else v

theorem reserve_data (alloc : Allocator) (v : Vec) (additional : ℕ) :
    (v.reserve alloc additional).data = v.data := by
  rw [reserve]
  split <;> rfl

/-- There is room for as many elements more. -/
theorem le_reserve_capacity (alloc : Allocator) (v : Vec) (additional : ℕ) :
    v.data.length + additional ≤ (v.reserve alloc additional).capacity := by
  rw [reserve]
  split
  · exact alloc.le_grow _ _
  · have hle := v.length_le
    omega

def extendFromSlice (alloc : Allocator) (v : Vec) (s : Bytes) : Vec :=
  let r := v.reserve alloc s.length
  ⟨r.data ++ s, r.capacity, by
    rw [length_append, reserve_data]
    exact le_reserve_capacity alloc v s.length⟩

theorem capacity_le_extendFromSlice (alloc : Allocator) (v : Vec) (s : Bytes) :
    v.capacity ≤ (v.extendFromSlice alloc s).capacity := by
  have hreserve := le_reserve_capacity alloc v s.length
  have hle := v.length_le
  rw [extendFromSlice]
  dsimp only
  rw [reserve] at hreserve ⊢
  split
  · next hgrow =>
    rw [if_pos hgrow] at hreserve
    dsimp only at hreserve ⊢
    omega
  · exact le_rfl

/-- What is read into the spare capacity. -/
def fill (v : Vec) (s : Bytes) : Vec :=
  ⟨v.data ++ s.take (v.capacity - v.data.length), v.capacity, by
    have hle := v.length_le
    rw [length_append, length_take]
    omega⟩

theorem fill_data {v : Vec} {s : Bytes} (h : s.length ≤ v.capacity - v.data.length) :
    (v.fill s).data = v.data ++ s :=
  congrArg (v.data ++ ·) (take_of_length_le h)

def truncate (v : Vec) (n : ℕ) : Vec :=
  ⟨v.data.take n, v.capacity, (length_take_le' _ _).trans v.length_le⟩

end Vec

/-! ### Readers -/

/-- What happens to a call of `read`. -/
inductive Delivery
  /-- At most so many bytes are delivered. -/
  | piece (n : ℕ)
  | interrupted
  | error
deriving DecidableEq

/-- A reader with what it has left. After its schedule it delivers as much as fits. -/
structure Reader where
  rest : Bytes
  schedule : List Delivery
  /-- The lengths of the buffers of the calls so far. -/
  bufs : List ℕ
deriving DecidableEq

inductive ReadResult
  | ok (data : Bytes)
  | interrupted
  | error
deriving DecidableEq

namespace Reader

def deliver (r : Reader) (schedule : List Delivery) (buf n : ℕ) : ReadResult × Reader :=
  (.ok (r.rest.take n), ⟨r.rest.drop n, schedule, r.bufs ++ [buf]⟩)

/-- `Read::read`, with a buffer of length `buf`. -/
def read (r : Reader) (buf : ℕ) : ReadResult × Reader :=
  match r.schedule with
  | [] => r.deliver [] buf buf
  | .piece n :: schedule => r.deliver schedule buf (min n buf)
  | .interrupted :: schedule => (.interrupted, ⟨r.rest, schedule, r.bufs ++ [buf]⟩)
  | .error :: schedule => (.error, ⟨r.rest, schedule, r.bufs ++ [buf]⟩)

def size (r : Reader) : ℕ := r.rest.length + r.schedule.length

variable {buf : ℕ}

/-- A reader delivers at most what fits, and takes it from what it has left. -/
theorem read_ok {r r' : Reader} {data : Bytes} (h : r.read buf = (.ok data, r')) :
    r.rest = data ++ r'.rest ∧ data.length ≤ buf ∧ r'.bufs = r.bufs ++ [buf] ∧
      r'.schedule = r.schedule.tail := by
  have hdeliver (schedule : List Delivery) (n : ℕ) (hn : n ≤ buf)
      (h : r.deliver schedule buf n = (.ok data, r')) :
      r.rest = data ++ r'.rest ∧ data.length ≤ buf ∧ r'.bufs = r.bufs ++ [buf] ∧
        r'.schedule = schedule := by
    obtain ⟨hdata, rfl⟩ := Prod.mk.inj h
    obtain rfl := ReadResult.ok.inj hdata
    refine ⟨(take_append_drop n r.rest).symm, (length_take_le _ _).trans hn, rfl, rfl⟩
  rw [read] at h
  split at h
  · next hnil =>
    rw [hnil]
    exact hdeliver [] buf le_rfl h
  · next n schedule hcons =>
    rw [hcons]
    exact hdeliver schedule (min n buf) (min_le_right n buf) h
  · exact nomatch h
  · exact nomatch h

theorem read_interrupted {r r' : Reader} (h : r.read buf = (.interrupted, r')) :
    r'.rest = r.rest ∧ r'.bufs = r.bufs ++ [buf] ∧ ∃ d, r.schedule = d :: r'.schedule := by
  rw [read] at h
  split at h
  · exact nomatch h
  · exact nomatch h
  · next schedule hcons =>
    obtain ⟨-, rfl⟩ := Prod.mk.inj h
    exact ⟨rfl, rfl, _, hcons⟩
  · exact nomatch h

theorem read_error {r r' : Reader} (h : r.read buf = (.error, r')) :
    .error ∈ r.schedule := by
  rw [read] at h
  split at h
  · exact nomatch h
  · exact nomatch h
  · exact nomatch h
  · next schedule hcons =>
    rw [hcons]
    exact mem_cons_self

theorem size_lt_of_interrupted {r r' : Reader} (h : r.read buf = (.interrupted, r')) :
    r'.size < r.size := by
  obtain ⟨hrest, -, d, hschedule⟩ := read_interrupted h
  rw [size, size, hrest, hschedule, length_cons]
  omega

theorem size_add_le_of_ok {r r' : Reader} {data : Bytes} (h : r.read buf = (.ok data, r')) :
    r'.size + data.length ≤ r.size := by
  obtain ⟨hrest, -, -, hschedule⟩ := read_ok h
  rw [size, size, hrest, hschedule, length_append, length_tail]
  omega

end Reader

/-! ### Blocks of lines -/

inductive LinesReadError
  | io
  | tooLongLine (maxLineLen : ℕ)
deriving DecidableEq

/-- A call of `read_lines_block`: its result, and what it leaves in its arguments. -/
structure ReadLines where
  result : Except LinesReadError Bool
  dstBuf : Vec
  tailBuf : Bytes
  reader : Reader

def defaultBlockSize : ℕ := 64 * 1024

section ReadLinesBlock

variable (alloc : Allocator) (maxLineLen : ℕ)

/-- The buffer grows before it is full. -/
def growBuf (dstBuf : Vec) : Vec :=
  if dstBuf.capacity < 2 * dstBuf.data.length then dstBuf.reserve alloc dstBuf.capacity else dstBuf

theorem growBuf_data (dstBuf : Vec) : (growBuf alloc dstBuf).data = dstBuf.data := by
  rw [growBuf]
  split
  · exact Vec.reserve_data _ _ _
  · rfl

/-- The loop of `read_lines_block`. -/
def readLinesLoop (r : Reader) (dstBuf : Vec) : ReadLines :=
  match _hread : r.read (dstBuf.capacity - dstBuf.data.length) with
  | (.interrupted, r') => readLinesLoop r' dstBuf
  | (.error, r') => ⟨.error .io, dstBuf, [], r'⟩
  | (.ok data, r') =>
    if _hdata : data = [] then ⟨.ok (!dstBuf.data.isEmpty), dstBuf, [], r'⟩
    else
      match rposition (· == newline) data with
      | none =>
        if (dstBuf.fill data).data.length > maxLineLen then
          ⟨.error (.tooLongLine maxLineLen), dstBuf.fill data, [], r'⟩
        else readLinesLoop r' (growBuf alloc (dstBuf.fill data))
      | some pos =>
        let nn := dstBuf.data.length + pos
        ⟨.ok true, (dstBuf.fill data).truncate nn, (dstBuf.fill data).data.drop (nn + 1), r'⟩
termination_by r.size
decreasing_by
  · exact Reader.size_lt_of_interrupted _hread
  · have hle := Reader.size_add_le_of_ok _hread
    have hpos := length_pos_iff.mpr _hdata
    omega

/-- The buffer that a call starts with: what it carries, in an empty buffer that is large enough. -/
def openBuf (dstBuf : Vec) (tailBuf : Bytes) : Vec :=
  let dstBuf := dstBuf.clear
  let dstBuf :=
    if dstBuf.capacity < defaultBlockSize then dstBuf.reserve alloc defaultBlockSize else dstBuf
  dstBuf.extendFromSlice alloc tailBuf

def readLinesBlock (r : Reader) (dstBuf : Vec) (tailBuf : Bytes) : ReadLines :=
  readLinesLoop alloc maxLineLen r (openBuf alloc dstBuf tailBuf)

variable {alloc maxLineLen} {r r' : Reader} {dstBuf : Vec}

theorem readLinesLoop_of_interrupted
    (h : r.read (dstBuf.capacity - dstBuf.data.length) = (.interrupted, r')) :
    readLinesLoop alloc maxLineLen r dstBuf = readLinesLoop alloc maxLineLen r' dstBuf := by
  rw [readLinesLoop]
  split
  · next h' =>
    obtain ⟨-, rfl⟩ := Prod.mk.inj (h.symm.trans h')
    rfl
  · next h' => exact nomatch (Prod.mk.inj (h.symm.trans h')).1
  · next h' => exact nomatch (Prod.mk.inj (h.symm.trans h')).1

theorem readLinesLoop_of_error (h : r.read (dstBuf.capacity - dstBuf.data.length) = (.error, r')) :
    readLinesLoop alloc maxLineLen r dstBuf = ⟨.error .io, dstBuf, [], r'⟩ := by
  rw [readLinesLoop]
  split
  · next h' => exact nomatch (Prod.mk.inj (h.symm.trans h')).1
  · next h' =>
    obtain ⟨-, rfl⟩ := Prod.mk.inj (h.symm.trans h')
    rfl
  · next h' => exact nomatch (Prod.mk.inj (h.symm.trans h')).1

theorem readLinesLoop_of_ok {data : Bytes}
    (h : r.read (dstBuf.capacity - dstBuf.data.length) = (.ok data, r')) :
    readLinesLoop alloc maxLineLen r dstBuf =
      if data = [] then ⟨.ok (!dstBuf.data.isEmpty), dstBuf, [], r'⟩
      else
        match rposition (· == newline) data with
        | none =>
          if (dstBuf.fill data).data.length > maxLineLen then
            ⟨.error (.tooLongLine maxLineLen), dstBuf.fill data, [], r'⟩
          else readLinesLoop alloc maxLineLen r' (growBuf alloc (dstBuf.fill data))
        | some pos =>
          ⟨.ok true, (dstBuf.fill data).truncate (dstBuf.data.length + pos),
            (dstBuf.fill data).data.drop (dstBuf.data.length + pos + 1), r'⟩ := by
  rw [readLinesLoop]
  split
  · next h' => exact nomatch (Prod.mk.inj (h.symm.trans h')).1
  · next h' => exact nomatch (Prod.mk.inj (h.symm.trans h')).1
  · next h' =>
    obtain ⟨hdata, rfl⟩ := Prod.mk.inj (h.symm.trans h')
    obtain rfl := ReadResult.ok.inj hdata
    rfl

/-- What is left after a block is less than what there was before. -/
theorem readLinesLoop_size_lt
    (h : (readLinesLoop alloc maxLineLen r dstBuf).result = .ok true) :
    (readLinesLoop alloc maxLineLen r dstBuf).tailBuf.length +
        (readLinesLoop alloc maxLineLen r dstBuf).reader.size <
      dstBuf.data.length + r.size := by
  induction r, dstBuf using readLinesLoop.induct alloc maxLineLen with
  | case1 r dstBuf r' hread ih =>
    rw [readLinesLoop_of_interrupted hread] at h ⊢
    have hlt := Reader.size_lt_of_interrupted hread
    have hrec := ih h
    omega
  | case2 r dstBuf r' hread =>
    rw [readLinesLoop_of_error hread] at h
    exact nomatch h
  | case3 r dstBuf r' hread =>
    rw [readLinesLoop_of_ok hread, if_pos rfl] at h ⊢
    have hne : dstBuf.data ≠ [] := by
      intro hnil
      rw [hnil] at h
      exact nomatch h
    have hpos := length_pos_iff.mpr hne
    have hle := Reader.size_add_le_of_ok hread
    rw [length_nil] at hle
    dsimp only
    rw [length_nil]
    omega
  | case4 r dstBuf data r' hread hdata hnone hlong =>
    rw [readLinesLoop_of_ok hread, if_neg hdata, hnone] at h
    dsimp only at h
    rw [if_pos hlong] at h
    exact nomatch h
  | case5 r dstBuf data r' hread hdata hnone hlong ih =>
    rw [readLinesLoop_of_ok hread, if_neg hdata, hnone] at h ⊢
    dsimp only at h ⊢
    rw [if_neg hlong] at h ⊢
    have hrec := ih h
    have hle := Reader.size_add_le_of_ok hread
    have hgrow : (growBuf alloc (dstBuf.fill data)).data.length =
        dstBuf.data.length + data.length := by
      rw [growBuf_data, Vec.fill_data (Reader.read_ok hread).2.1, length_append]
    omega
  | case6 r dstBuf data r' hread hdata pos hsome =>
    rw [readLinesLoop_of_ok hread, if_neg hdata, hsome] at h ⊢
    have hle := Reader.size_add_le_of_ok hread
    have hfill := Vec.fill_data (Reader.read_ok hread).2.1
    dsimp only
    rw [hfill, length_drop, length_append]
    have hpos := length_pos_iff.mpr hdata
    omega

/-- The reader delivers everything, in pieces that are not empty, and was given no empty buffer. -/
structure Reader.Delivers (r : Reader) : Prop where
  schedule : ∀ d ∈ r.schedule, d ≠ .error ∧ d ≠ .piece 0
  bufs : ∀ n ∈ r.bufs, 0 < n

namespace Reader.Delivers

theorem of_interrupted {r r' : Reader} {buf : ℕ} (h : r.Delivers) (hbuf : 0 < buf)
    (hread : r.read buf = (.interrupted, r')) : r'.Delivers := by
  obtain ⟨-, hbufs, d, hschedule⟩ := read_interrupted hread
  refine ⟨fun d' hd' => h.schedule d' (hschedule ▸ mem_cons_of_mem d hd'), fun n hn => ?_⟩
  rw [hbufs, mem_append, mem_singleton] at hn
  rcases hn with hn | rfl
  · exact h.bufs n hn
  · exact hbuf

theorem of_ok {r r' : Reader} {buf : ℕ} {data : Bytes} (h : r.Delivers) (hbuf : 0 < buf)
    (hread : r.read buf = (.ok data, r')) : r'.Delivers := by
  obtain ⟨-, -, hbufs, hschedule⟩ := read_ok hread
  refine ⟨fun d hd => h.schedule d (mem_of_mem_tail (hschedule ▸ hd)), fun n hn => ?_⟩
  rw [hbufs, mem_append, mem_singleton] at hn
  rcases hn with hn | rfl
  · exact h.bufs n hn
  · exact hbuf

/-- It delivers nothing only at the end. -/
theorem rest_eq_nil {r r' : Reader} {buf : ℕ} (h : r.Delivers) (hbuf : 0 < buf)
    (hread : r.read buf = (.ok [], r')) : r.rest = [] := by
  have hdeliver (schedule : List Delivery) (n : ℕ) (hn : 0 < n)
      (h : r.deliver schedule buf n = (.ok [], r')) : r.rest = [] := by
    have hdata := ReadResult.ok.inj (Prod.mk.inj h).1
    exact (take_eq_nil_iff.mp hdata).resolve_left hn.ne'
  rw [read] at hread
  split at hread
  · exact hdeliver [] buf hbuf hread
  · next n schedule hcons =>
    have hn : n ≠ 0 := fun hn => (h.schedule (.piece n) (hcons ▸ mem_cons_self)).2 (hn ▸ rfl)
    exact hdeliver schedule (min n buf) (by omega) hread
  · exact nomatch hread
  · exact nomatch hread

end Reader.Delivers

/-- What a call finds in what is pending: the partial line that is carried and what the reader has
left. -/
inductive ReadLines.Next (pending : Bytes) (out : ReadLines) : Prop
  | eof (result : out.result = .ok false) (pending_eq : pending = [])
  | block (result : out.result = .ok true)
      (pending_eq : pending = out.dstBuf.data ++ newline :: (out.tailBuf ++ out.reader.rest))
  | last (result : out.result = .ok true) (pending_eq : pending = out.dstBuf.data)
      (ne_nil : pending ≠ []) (rest_eq : out.tailBuf ++ out.reader.rest = [])

/-- What holds between the calls. -/
structure ReadLines.Inv (out : ReadLines) : Prop where
  delivers : out.reader.Delivers
  newline_not_mem : newline ∉ out.tailBuf
  tail_lt : out.tailBuf.length < out.dstBuf.capacity

theorem lt_growBuf_capacity (alloc : Allocator) {dstBuf : Vec} (h : dstBuf.data ≠ []) :
    dstBuf.data.length < (growBuf alloc dstBuf).capacity := by
  have hpos := length_pos_iff.mpr h
  have hle := dstBuf.length_le
  rw [growBuf]
  split
  · have hreserve := Vec.le_reserve_capacity alloc dstBuf dstBuf.capacity
    omega
  · omega

theorem newline_not_mem_append {line data : Bytes} (h : newline ∉ line)
    (hdata : rposition (· == newline) data = none) : newline ∉ line ++ data := by
  rw [mem_append, not_or]
  exact ⟨h, fun hmem => absurd (rposition_eq_none hdata newline hmem) (by simp)⟩

/-- The loop, from a partial line that leaves room in the buffer. -/
theorem readLinesLoop_spec (hr : r.Delivers) (hnl : newline ∉ dstBuf.data)
    (hlt : dstBuf.data.length < dstBuf.capacity)
    (hlines : ∀ line ∈ (dstBuf.data ++ r.rest).splitOn newline, line.length ≤ maxLineLen) :
    (readLinesLoop alloc maxLineLen r dstBuf).Next (dstBuf.data ++ r.rest) ∧
      (readLinesLoop alloc maxLineLen r dstBuf).Inv := by
  have hbuf {dstBuf : Vec} (hlt : dstBuf.data.length < dstBuf.capacity) :
      0 < dstBuf.capacity - dstBuf.data.length := by omega
  induction r, dstBuf using readLinesLoop.induct alloc maxLineLen with
  | case1 r dstBuf r' hread ih =>
    rw [readLinesLoop_of_interrupted hread]
    have hrest := (Reader.read_interrupted hread).1
    rw [← hrest] at hlines ⊢
    exact ih (hr.of_interrupted (hbuf hlt) hread) hnl hlt hlines
  | case2 r dstBuf r' hread =>
    exact absurd rfl (hr.schedule _ (Reader.read_error hread)).1
  | case3 r dstBuf r' hread =>
    rw [readLinesLoop_of_ok hread, if_pos rfl]
    have hnil := hr.rest_eq_nil (hbuf hlt) hread
    have hnil' : r'.rest = [] := by
      have hsplit := (Reader.read_ok hread).1
      rw [hnil] at hsplit
      exact hsplit.symm
    rw [hnil, append_nil]
    refine ⟨?_, hr.of_ok (hbuf hlt) hread, not_mem_nil, (Nat.zero_le _).trans_lt hlt⟩
    by_cases hdst : dstBuf.data = []
    · exact .eof (by rw [hdst]; rfl) hdst
    · refine .last ?_ rfl hdst hnil'
      rw [isEmpty_eq_false_iff.mpr hdst]
      rfl
  | case4 r dstBuf data r' hread hdata hnone hlong =>
    obtain ⟨hsplit, hle, -, -⟩ := Reader.read_ok hread
    rw [Vec.fill_data hle] at hlong
    have hnl' : newline ∉ dstBuf.data ++ data := newline_not_mem_append hnl hnone
    rw [hsplit, ← append_assoc] at hlines
    obtain ⟨line, hline, hbefore⟩ := exists_mem_splitOn_append hnl' r'.rest
    have hlen := hlines line hline
    have hlen' := hbefore.length_le
    omega
  | case5 r dstBuf data r' hread hdata hnone hlong ih =>
    obtain ⟨hsplit, hle, -, -⟩ := Reader.read_ok hread
    have hnl' : newline ∉ dstBuf.data ++ data := newline_not_mem_append hnl hnone
    have hgrow : (growBuf alloc (dstBuf.fill data)).data = dstBuf.data ++ data := by
      rw [growBuf_data, Vec.fill_data hle]
    have hne : (dstBuf.fill data).data ≠ [] := by
      rw [Vec.fill_data hle]
      exact append_ne_nil_of_right_ne_nil _ hdata
    have hroom := lt_growBuf_capacity alloc hne
    rw [readLinesLoop_of_ok hread, if_neg hdata, hnone]
    dsimp only
    rw [if_neg hlong]
    rw [hsplit, ← append_assoc, ← hgrow] at hlines ⊢
    refine ih (hr.of_ok (hbuf hlt) hread) (hgrow ▸ hnl') ?_ hlines
    rwa [growBuf_data]
  | case6 r dstBuf data r' hread hdata pos hsome =>
    obtain ⟨hsplit, hle, -, -⟩ := Reader.read_ok hread
    obtain ⟨l, x, tail, rfl, hx, htail, rfl⟩ := exists_append_of_rposition hsome
    obtain rfl : x = newline := beq_iff_eq.mp hx
    have hfill := Vec.fill_data hle
    have hblock : (dstBuf.fill (l ++ newline :: tail)).data =
        (dstBuf.data ++ l) ++ newline :: tail := by
      rw [hfill, append_assoc]
    rw [readLinesLoop_of_ok hread, if_neg hdata, hsome]
    dsimp only
    have hpos : dstBuf.data.length + l.length = (dstBuf.data ++ l).length := length_append.symm
    rw [hblock, hpos, Influx.drop_length_succ_append]
    refine ⟨.block rfl ?_, hr.of_ok (hbuf hlt) hread, ?_, ?_⟩
    · change _ = ((dstBuf.fill (l ++ newline :: tail)).data.take _) ++ _
      rw [hblock, take_left, hsplit]
      simp only [append_assoc, cons_append]
    · exact fun hmem => absurd (htail newline hmem) (by simp)
    · change tail.length < dstBuf.capacity
      rw [length_append, length_cons] at hle
      omega

theorem openBuf_data (alloc : Allocator) (dstBuf : Vec) (tailBuf : Bytes) :
    (openBuf alloc dstBuf tailBuf).data = tailBuf := by
  have hclear : (if dstBuf.clear.capacity < defaultBlockSize then
      dstBuf.clear.reserve alloc defaultBlockSize else dstBuf.clear).data = [] := by
    split
    · rw [Vec.reserve_data]
      rfl
    · rfl
  change Vec.data (Vec.reserve alloc _ _) ++ tailBuf = tailBuf
  rw [Vec.reserve_data, hclear, nil_append]

variable {tailBuf : Bytes}

/-- The partial line leaves room in the buffer it is put into. -/
theorem lt_openBuf_capacity (alloc : Allocator)
    (hlt : tailBuf.length < max dstBuf.capacity defaultBlockSize) :
    tailBuf.length < (openBuf alloc dstBuf tailBuf).capacity := by
  have hroom : ∃ v : Vec, tailBuf.length < v.capacity ∧
      openBuf alloc dstBuf tailBuf = v.extendFromSlice alloc tailBuf := by
    refine ⟨_, ?_, rfl⟩
    change _ < Vec.capacity (if dstBuf.capacity < _ then _ else _)
    split
    · next hcap =>
      have hreserve := Vec.le_reserve_capacity alloc dstBuf.clear defaultBlockSize
      rw [max_eq_right hcap.le] at hlt
      omega
    · next hcap => rwa [max_eq_left (not_lt.mp hcap)] at hlt
  obtain ⟨v, hlt, heq⟩ := hroom
  rw [heq]
  exact hlt.trans_le (Vec.capacity_le_extendFromSlice alloc v tailBuf)

/-- A call, with the partial line of the call before. -/
theorem readLinesBlock_spec (alloc : Allocator) (hr : r.Delivers) (hnl : newline ∉ tailBuf)
    (hlt : tailBuf.length < max dstBuf.capacity defaultBlockSize)
    (hlines : ∀ line ∈ (tailBuf ++ r.rest).splitOn newline, line.length ≤ maxLineLen) :
    (readLinesBlock alloc maxLineLen r dstBuf tailBuf).Next (tailBuf ++ r.rest) ∧
      (readLinesBlock alloc maxLineLen r dstBuf tailBuf).Inv := by
  have hdata := openBuf_data alloc dstBuf tailBuf
  have hroom := lt_openBuf_capacity alloc hlt
  rw [readLinesBlock]
  generalize openBuf alloc dstBuf tailBuf = v at hdata hroom
  subst hdata
  exact readLinesLoop_spec hr hnl hroom hlines

theorem readLinesBlock_size_lt (h : (readLinesBlock alloc maxLineLen r dstBuf tailBuf).result =
    .ok true) : (readLinesBlock alloc maxLineLen r dstBuf tailBuf).tailBuf.length +
        (readLinesBlock alloc maxLineLen r dstBuf tailBuf).reader.size <
      tailBuf.length + r.size := by
  have hlt := readLinesLoop_size_lt h
  rwa [openBuf_data] at hlt

end ReadLinesBlock

/-! ### The loop over the blocks -/

/-- The blocks of the calls of `read_lines_block` up to the last one, the error of that one, and the
reader in the end. -/
structure Blocks where
  blocks : List Bytes
  error : Option LinesReadError
  reader : Reader

section ReadBlocks

variable (alloc : Allocator) (maxLineLen : ℕ)

/-- The calls of `read_lines_block`, one after the other. -/
def readBlocks (r : Reader) (reqBuf : Vec) (tailBuf : Bytes) : Blocks :=
  match _hcall : readLinesBlock alloc maxLineLen r reqBuf tailBuf with
  | ⟨.error err, _, _, r'⟩ => ⟨[], some err, r'⟩
  | ⟨.ok false, _, _, r'⟩ => ⟨[], none, r'⟩
  | ⟨.ok true, reqBuf', tailBuf', r'⟩ =>
    let rest := readBlocks r' reqBuf' tailBuf'
    ⟨reqBuf'.data :: rest.blocks, rest.error, rest.reader⟩
termination_by tailBuf.length + r.size
decreasing_by
  have hlt := readLinesBlock_size_lt (congrArg ReadLines.result _hcall)
  rwa [_hcall] at hlt

variable {alloc maxLineLen}

variable {tailBuf : Bytes}

theorem readBlocks_eq (r : Reader) (reqBuf : Vec) (tailBuf : Bytes) :
    readBlocks alloc maxLineLen r reqBuf tailBuf =
      let call := readLinesBlock alloc maxLineLen r reqBuf tailBuf
      match call.result with
      | .error err => ⟨[], some err, call.reader⟩
      | .ok false => ⟨[], none, call.reader⟩
      | .ok true =>
        let rest := readBlocks alloc maxLineLen call.reader call.dstBuf call.tailBuf
        ⟨call.dstBuf.data :: rest.blocks, rest.error, rest.reader⟩ := by
  rw [readBlocks]
  split
  all_goals
    next hcall => rw [hcall]

theorem readBlocks_of_eof {r : Reader} {reqBuf : Vec}
    (h : (readLinesBlock alloc maxLineLen r reqBuf tailBuf).result = .ok false) :
    readBlocks alloc maxLineLen r reqBuf tailBuf =
      ⟨[], none, (readLinesBlock alloc maxLineLen r reqBuf tailBuf).reader⟩ := by
  simp only [readBlocks_eq r, h]

theorem readBlocks_of_block {r : Reader} {reqBuf : Vec}
    (h : (readLinesBlock alloc maxLineLen r reqBuf tailBuf).result = .ok true) :
    readBlocks alloc maxLineLen r reqBuf tailBuf =
      let call := readLinesBlock alloc maxLineLen r reqBuf tailBuf
      let rest := readBlocks alloc maxLineLen call.reader call.dstBuf call.tailBuf
      ⟨call.dstBuf.data :: rest.blocks, rest.error, rest.reader⟩ := by
  simp only [readBlocks_eq r, h]

/-- The blocks are the text, up to a newline at its end. -/
structure Blocks.Joins (pending : Bytes) (blocks : List Bytes) : Prop where
  nil : blocks = [] ↔ pending = []
  intercalate : [newline].intercalate blocks = pending ∨
    [newline].intercalate blocks ++ [newline] = pending

namespace Blocks.Joins

theorem block {rest : Bytes} {blocks : List Bytes} (h : Joins rest blocks) (b : Bytes) :
    Joins (b ++ newline :: rest) (b :: blocks) := by
  refine ⟨iff_of_false (cons_ne_nil _ _) (by simp), ?_⟩
  cases blocks with
  | nil =>
    rw [h.nil.mp rfl, intercalate_singleton]
    exact .inr rfl
  | cons b' blocks =>
    rw [intercalate_cons_cons, append_assoc, singleton_append, append_assoc,
      cons_append]
    exact h.intercalate.imp (fun heq => by rw [heq]) fun heq => by rw [heq]

end Blocks.Joins

/-- The loop reads what is pending, and ends without an error. -/
theorem readBlocks_spec (alloc : Allocator) {r : Reader} {reqBuf : Vec} (hr : r.Delivers)
    (hnl : newline ∉ tailBuf) (hlt : tailBuf.length < max reqBuf.capacity defaultBlockSize)
    (hlines : ∀ line ∈ (tailBuf ++ r.rest).splitOn newline, line.length ≤ maxLineLen) :
    (readBlocks alloc maxLineLen r reqBuf tailBuf).error = none ∧
      (∀ n ∈ (readBlocks alloc maxLineLen r reqBuf tailBuf).reader.bufs, 0 < n) ∧
      Blocks.Joins (tailBuf ++ r.rest) (readBlocks alloc maxLineLen r reqBuf tailBuf).blocks := by
  induction hn : tailBuf.length + r.size using Nat.strongRecOn generalizing r reqBuf tailBuf with
  | ind n ih =>
    obtain ⟨hnext, hinv⟩ := readLinesBlock_spec alloc hr hnl hlt hlines
    cases hnext with
    | eof hresult hpending =>
      rw [readBlocks_of_eof hresult, hpending]
      exact ⟨rfl, hinv.delivers.bufs, iff_of_true rfl rfl, .inl rfl⟩
    | block hresult hpending =>
      have hsize := readLinesBlock_size_lt hresult
      rw [hpending, splitOn_append_cons_self] at hlines
      obtain ⟨herror, hbufs, hjoins⟩ := ih _ (hn ▸ hsize) hinv.delivers hinv.newline_not_mem
        (hinv.tail_lt.trans_le (le_max_left _ _))
        (fun line hline => hlines line (mem_append_right _ hline)) rfl
      rw [readBlocks_of_block hresult, hpending]
      exact ⟨herror, hbufs, hjoins.block _⟩
    | last hresult hpending hne hrest =>
      have hsize := readLinesBlock_size_lt hresult
      obtain ⟨herror, hbufs, hjoins⟩ := ih _ (hn ▸ hsize) hinv.delivers hinv.newline_not_mem
        (hinv.tail_lt.trans_le (le_max_left _ _))
        (fun line hline => by
          rw [hrest, splitOn_nil, mem_singleton] at hline
          rw [hline]
          exact Nat.zero_le _) rfl
      rw [readBlocks_of_block hresult]
      refine ⟨herror, hbufs, iff_of_false (cons_ne_nil _ _) hne, .inl ?_⟩
      dsimp only
      rw [hjoins.nil.mpr hrest, intercalate_singleton]
      exact hpending.symm

/-- The blocks of a text are all valid UTF-8 exactly when the text is. -/
theorem Blocks.Joins.all_isValidUtf8 {pending : Bytes} {blocks : List Bytes}
    (h : Blocks.Joins pending blocks) : blocks.all isValidUtf8 = isValidUtf8 pending := by
  have hascii : newline < 0x80 := by decide
  rw [← isValidUtf8_intercalate hascii]
  rcases h.intercalate with heq | heq
  · rw [heq]
  · rw [← heq, Bool.eq_iff_iff, isValidUtf8_append_cons hascii]
    exact (and_iff_left rfl).symm

end ReadBlocks

/-! ### The stream loops -/

inductive StreamError
  | lines (err : LinesReadError)
  | utf8
deriving DecidableEq

/-- What a stream loop does: the rows that it hands to its callback, block by block, its error, and
the reader in the end. -/
structure Streamed (ρ : Type) where
  rows : List (List ρ)
  error : Option StreamError
  reader : Reader

section ParseStream

variable (alloc : Allocator) (maxLineLen : ℕ) {ρ : Type} (unmarshal : Bytes → List ρ)

/-- The loop of `parse_stream_internal`, the same for each of the parsers, with a callback that
takes every block. A block that is not UTF-8 (`str::from_utf8`) ends it. -/
def parseStreamInternal (r : Reader) (reqBuf : Vec) (tailBuf : Bytes) : Streamed ρ :=
  match _hcall : readLinesBlock alloc maxLineLen r reqBuf tailBuf with
  | ⟨.error err, _, _, r'⟩ => ⟨[], some (.lines err), r'⟩
  | ⟨.ok false, _, _, r'⟩ => ⟨[], none, r'⟩
  | ⟨.ok true, reqBuf', tailBuf', r'⟩ =>
    if isValidUtf8 reqBuf'.data then
      let rest := parseStreamInternal r' reqBuf' tailBuf'
      ⟨unmarshal reqBuf'.data :: rest.rows, rest.error, rest.reader⟩
    else ⟨[], some .utf8, r'⟩
termination_by tailBuf.length + r.size
decreasing_by
  have hlt := readLinesBlock_size_lt (congrArg ReadLines.result _hcall)
  rwa [_hcall] at hlt

theorem parseStreamInternal_unfold (r : Reader) (reqBuf : Vec) (tailBuf : Bytes) :
    parseStreamInternal alloc maxLineLen unmarshal r reqBuf tailBuf =
      let call := readLinesBlock alloc maxLineLen r reqBuf tailBuf
      match call.result with
      | .error err => ⟨[], some (.lines err), call.reader⟩
      | .ok false => ⟨[], none, call.reader⟩
      | .ok true =>
        if isValidUtf8 call.dstBuf.data then
          let rest :=
            parseStreamInternal alloc maxLineLen unmarshal call.reader call.dstBuf call.tailBuf
          ⟨unmarshal call.dstBuf.data :: rest.rows, rest.error, rest.reader⟩
        else ⟨[], some .utf8, call.reader⟩ := by
  rw [parseStreamInternal]
  split
  all_goals
    next hcall => rw [hcall]

/-- The stream loop takes the blocks before the first one that is not UTF-8, and this one is its
error. -/
theorem parseStreamInternal_eq (r : Reader) (reqBuf : Vec) (tailBuf : Bytes) :
    let out := readBlocks alloc maxLineLen r reqBuf tailBuf
    let s := parseStreamInternal alloc maxLineLen unmarshal r reqBuf tailBuf
    s.rows = (out.blocks.takeWhile isValidUtf8).map unmarshal ∧
      s.error = if out.blocks.all isValidUtf8 then out.error.map .lines else some .utf8 := by
  induction hn : tailBuf.length + r.size using Nat.strongRecOn generalizing r reqBuf tailBuf with
  | ind n ih =>
    rw [readBlocks_eq, parseStreamInternal_unfold]
    match hresult : (readLinesBlock alloc maxLineLen r reqBuf tailBuf).result with
    | .error err | .ok false =>
      simp only [hresult]
      exact ⟨rfl, rfl⟩
    | .ok true =>
      obtain ⟨hrows, herror⟩ := ih _ (hn ▸ readLinesBlock_size_lt hresult) _ _ _ rfl
      simp only [hresult]
      by_cases hvalid : isValidUtf8 (readLinesBlock alloc maxLineLen r reqBuf tailBuf).dstBuf.data
      · simp only [takeWhile_cons, all_cons, hvalid, Bool.true_and]
        exact ⟨congrArg _ hrows, herror⟩
      · simp [hvalid]

end ParseStream

/-! ### The rows of the blocks -/

section Rows

variable {F : Type} (ops : F64Ops F)

theorem LineByLine.flatMap_of_joins {β : Type} {read : Bytes → List β} (h : LineByLine newline read)
    {input : Bytes} {blocks : List Bytes} (hjoins : Blocks.Joins input blocks) :
    blocks.flatMap read = read input := by
  rw [← h.intercalate blocks]
  rcases hjoins.intercalate with heq | heq
  · rw [heq]
  · rw [← heq, h.append_singleton]

/-- What the stream loop of a parser does with the body that a reader has left. -/
structure Streams (alloc : Allocator) (maxLineLen : ℕ) (r : Reader) {ρ : Type}
    (unmarshal : Bytes → List ρ) : Prop where
  /-- Only a body that is not UTF-8 gives an error. -/
  error_eq : (parseStreamInternal alloc maxLineLen unmarshal r Vec.new []).error =
    if isValidUtf8 r.rest then none else some .utf8
  /-- The blocks before the first one that is not UTF-8 are taken. -/
  rows_eq : (parseStreamInternal alloc maxLineLen unmarshal r Vec.new []).rows =
    ((readBlocks alloc maxLineLen r Vec.new []).blocks.takeWhile isValidUtf8).map unmarshal
  /-- The rows of a body that is UTF-8 are those of the whole of it. -/
  flatten_rows_eq : isValidUtf8 r.rest = true →
    (parseStreamInternal alloc maxLineLen unmarshal r Vec.new []).rows.flatten = unmarshal r.rest

variable {alloc : Allocator} {maxLineLen : ℕ} {r : Reader}

theorem LineByLine.streams {ρ : Type} {unmarshal : Bytes → List ρ}
    (h : LineByLine newline unmarshal) (hr : r.Delivers)
    (hlines : ∀ line ∈ r.rest.splitOn newline, line.length ≤ maxLineLen) :
    Streams alloc maxLineLen r unmarshal := by
  have hlt : ([] : Bytes).length < max Vec.new.capacity defaultBlockSize := by decide
  obtain ⟨herror, -, hjoins⟩ := readBlocks_spec alloc hr not_mem_nil hlt hlines
  rw [nil_append] at hjoins
  obtain ⟨hrows, hend⟩ := parseStreamInternal_eq alloc maxLineLen unmarshal r Vec.new []
  rw [herror, hjoins.all_isValidUtf8] at hend
  refine ⟨hend, hrows, fun hvalid => ?_⟩
  have hall := all_eq_true.mp (hjoins.all_isValidUtf8.trans hvalid)
  rw [hrows, takeWhile_eq_self_iff.mpr hall, ← flatMap_def]
  exact LineByLine.flatMap_of_joins h hjoins

/-- **Streaming and the pieces of the body.** However a body with lines that are not too long is
split into pieces, it is read to its end without an error, no buffer given to the reader is empty,
and the blocks are the body up to a newline at its end. Each parser finds the same in a body that is
UTF-8, block by block, as in the whole of it; of another body it takes the blocks before the first
one that is not UTF-8, and ends with an error. -/
theorem stream_of_pieces (alloc : Allocator) (maxLineLen : ℕ) (input : Bytes)
    (schedule : List Delivery) (hschedule : ∀ d ∈ schedule, d ≠ .error ∧ d ≠ .piece 0)
    (hlines : ∀ line ∈ input.splitOn newline, line.length ≤ maxLineLen) :
    let r : Reader := ⟨input, schedule, []⟩
    let out := readBlocks alloc maxLineLen r Vec.new []
    (out.error = none ∧ (∀ n ∈ out.reader.bufs, 0 < n) ∧
      ([newline].intercalate out.blocks = input ∨
        [newline].intercalate out.blocks ++ [newline] = input)) ∧
      Streams alloc maxLineLen r (fun block => (Influx.unmarshal ops true block).rows) ∧
      Streams alloc maxLineLen r (Prometheus.unmarshal ops) ∧
      Streams alloc maxLineLen r (Graphite.unmarshal ops) := by
  have hreader : Reader.Delivers ⟨input, schedule, []⟩ := ⟨hschedule, fun n hn => (nomatch hn)⟩
  have hlt : ([] : Bytes).length < max Vec.new.capacity defaultBlockSize := by decide
  obtain ⟨herror, hbufs, hjoins⟩ := readBlocks_spec alloc hreader not_mem_nil hlt hlines
  exact ⟨⟨herror, hbufs, hjoins.intercalate⟩,
    LineByLine.streams (Influx.unmarshal_lineByLine ops) hreader hlines,
    LineByLine.streams (Prometheus.unmarshal_lineByLine ops) hreader hlines,
    LineByLine.streams (Graphite.unmarshal_lineByLine ops) hreader hlines⟩

/-- A body in three deliveries that cuts its first line. -/
theorem stream_of_pieces_cut :
    let r : Reader := ⟨ascii "a 1\nb 22\n", [.piece 5, .interrupted, .piece 1], []⟩
    let out := readBlocks .exact 5 r Vec.new []
    (out.error = none ∧ (∀ n ∈ out.reader.bufs, 0 < n) ∧
      ([newline].intercalate out.blocks = ascii "a 1\nb 22\n" ∨
        [newline].intercalate out.blocks ++ [newline] = ascii "a 1\nb 22\n")) ∧
      Streams .exact 5 r (fun block => (Influx.unmarshal integerOps true block).rows) ∧
      Streams .exact 5 r (Prometheus.unmarshal integerOps) ∧
      Streams .exact 5 r (Graphite.unmarshal integerOps) :=
  stream_of_pieces integerOps _ 5 _ _ (by decide) (by decide +kernel)

/-- A body whose third line is not UTF-8. -/
def brokenBody : Bytes := ascii "a f=1\nb f=2\n" ++ 0xFF :: ascii " f=3\n"

/-- In one piece nothing of the body is taken; where its first line comes before the others, this
line is. -/
theorem stream_of_brokenBody :
    let rows := fun block => (Influx.unmarshal integerOps true block).rows
    (∀ line ∈ brokenBody.splitOn newline, line.length ≤ 5) ∧
      (parseStreamInternal .exact 5 rows ⟨brokenBody, [], []⟩ Vec.new []).rows.flatten = [] ∧
      (parseStreamInternal .exact 5 rows ⟨brokenBody, [.piece 6], []⟩ Vec.new []).rows.flatten ≠
        [] := by
  refine ⟨by decide +kernel, ?_, ?_⟩
  · have hread : Reader.read ⟨brokenBody, [], []⟩ (65536 - 0) =
        (.ok brokenBody, ⟨[], [], [65536]⟩) := by decide +kernel
    have hresult : (readLinesBlock .exact 5 ⟨brokenBody, [], []⟩ Vec.new []).result = .ok true := by
      rw [readLinesBlock, readLinesLoop_of_ok hread]
      rfl
    have hdata : (readLinesBlock .exact 5 ⟨brokenBody, [], []⟩ Vec.new []).dstBuf.data =
        brokenBody.dropLast := by
      rw [readLinesBlock, readLinesLoop_of_ok hread]
      rfl
    have hvalid : isValidUtf8 brokenBody.dropLast = false := by decide +kernel
    rw [parseStreamInternal_unfold]
    simp [hresult, hdata, hvalid]
  · have hread : Reader.read ⟨brokenBody, [.piece 6], []⟩ (65536 - 0) =
        (.ok (ascii "a f=1\n"), ⟨brokenBody.drop 6, [], [65536]⟩) := by decide +kernel
    have hresult : (readLinesBlock .exact 5 ⟨brokenBody, [.piece 6], []⟩ Vec.new []).result =
        .ok true := by
      rw [readLinesBlock, readLinesLoop_of_ok hread]
      rfl
    have hdata : (readLinesBlock .exact 5 ⟨brokenBody, [.piece 6], []⟩ Vec.new []).dstBuf.data =
        ascii "a f=1" := by
      rw [readLinesBlock, readLinesLoop_of_ok hread]
      rfl
    have hvalid : isValidUtf8 (ascii "a f=1") = true := by decide +kernel
    have hrows : (Influx.unmarshal integerOps true (ascii "a f=1")).rows ≠ [] := by decide +kernel
    rw [parseStreamInternal_unfold]
    simp [hresult, hdata, hvalid, hrows]

end Rows

end Esmetrics.Protoparser
