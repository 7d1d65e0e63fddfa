import Esmetrics.Encoding.Int

/-!
# Time series identifiers

Model of `esm-storage/src/tsid.rs`. A `Tsid` is ordered lexicographically by its fields in
declaration order, which is the physical sort key of the blocks in a part; `metricId` alone
identifies the series.
-/

namespace Esmetrics

/-- The size of a marshaled `Tsid`. -/
def marshaledTsidSize : ℕ := 24

/-- The identifier of a time series. -/
@[ext]
structure Tsid where
  /-- The metric group. -/
  metricGroupId : UInt64
  /-- The job (service) of the series. -/
  jobId : UInt32
  /-- The instance (process) of the series. -/
  instanceId : UInt32
  /-- The unique id of the series. -/
  metricId : UInt64
  deriving DecidableEq, Repr, Inhabited

namespace Tsid

/-- The fields in the order of comparison. -/
def key (t : Tsid) : UInt64 ×ₗ UInt32 ×ₗ UInt32 ×ₗ UInt64 :=
  toLex (t.metricGroupId, toLex (t.jobId, toLex (t.instanceId, t.metricId)))

theorem key_injective : Function.Injective key := by
  intro a b h
  simp only [key, EmbeddingLike.apply_eq_iff_eq, Prod.mk.injEq] at h
  exact Tsid.ext h.1 h.2.1 h.2.2.1 h.2.2.2

/-- The derived `Ord`. -/
instance : LinearOrder Tsid := LinearOrder.lift' key key_injective

/-- The zero id comes first. -/
theorem default_le (t : Tsid) : default ≤ t := by
  have h64 : ∀ u : UInt64, (0 : UInt64) ≤ u := fun u => UInt64.le_iff_toNat_le.mpr (Nat.zero_le _)
  have h32 : ∀ u : UInt32, (0 : UInt32) ≤ u := fun u => UInt32.le_iff_toNat_le.mpr (Nat.zero_le _)
  change key default ≤ key t
  simp only [key, Prod.Lex.toLex_le_toLex]
  rcases (h64 t.metricGroupId).lt_or_eq with h | h
  · exact .inl h
  refine .inr ⟨h, ?_⟩
  rcases (h32 t.jobId).lt_or_eq with h | h
  · exact .inl h
  refine .inr ⟨h, ?_⟩
  rcases (h32 t.instanceId).lt_or_eq with h | h
  · exact .inl h
  exact .inr ⟨h, h64 t.metricId⟩

/-- Appends the marshaled id. -/
def marshal (t : Tsid) (dst : Bytes) : Bytes :=
  marshalUint64 (marshalUint32 (marshalUint32 (marshalUint64 dst t.metricGroupId) t.jobId)
    t.instanceId) t.metricId

/-- Reads an id; returns it with the rest of `src`. -/
def unmarshal (src : Bytes) : Except String (Tsid × Bytes) :=
  if src.length < marshaledTsidSize then
    let len := src.length
    .error s!"too short src; got {len} bytes; want {marshaledTsidSize} bytes"
  else
    let metricGroupId := unmarshalUint64 src
    let src := src.drop 8
    let jobId := unmarshalUint32 src
    let src := src.drop 4
    let instanceId := unmarshalUint32 src
    let src := src.drop 4
    let metricId := unmarshalUint64 src
    .ok (⟨metricGroupId, jobId, instanceId, metricId⟩, src.drop 8)

theorem marshal_eq (t : Tsid) (dst : Bytes) : t.marshal dst = dst ++ t.marshal [] := by
  simp [marshal, marshalUint64, marshalUint32]

@[simp]
theorem length_marshal (t : Tsid) (dst : Bytes) :
    (t.marshal dst).length = dst.length + marshaledTsidSize := by
  simp [marshal, marshalUint64, marshalUint32, marshaledTsidSize]

/-- A marshaled id is read back, whatever follows it. -/
theorem unmarshal_marshal (t : Tsid) (tail : Bytes) :
    unmarshal (t.marshal [] ++ tail) = .ok (t, tail) := by
  have hlen : ¬ (t.marshal [] ++ tail).length < marshaledTsidSize := by
    rw [List.length_append, length_marshal]
    omega
  have hsrc : t.marshal [] ++ tail = marshalUint64 [] t.metricGroupId ++
      (marshalUint32 [] t.jobId ++ (marshalUint32 [] t.instanceId ++
        (marshalUint64 [] t.metricId ++ tail))) := by
    simp [marshal, marshalUint64, marshalUint32]
  rw [unmarshal, if_neg hlen, hsrc]
  simp only [drop_marshalUint64, drop_marshalUint32, unmarshalUint64_marshalUint64,
    unmarshalUint32_marshalUint32]

end Tsid

end Esmetrics
