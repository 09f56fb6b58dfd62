import Engula.Bytes
import Mathlib.Data.Prod.Lex

/-! The records of an SST and the block layer under `format/sstable.rs`. An entry is a
`(ts, key, value)` triple; entries are ordered by internal key, user key ascending and then
timestamp descending. The block layer (`BlockBuilder`, `BlockIterator`, `BlockHandle`) is not
in the source: it is modelled from the spec as a `BlockFormat` whose contracts are a separate
`Lawful` predicate, and a block builder is known by the entries added since its last `finish`.
Timestamps, offsets and sizes are `u64` or `usize`; they are natural numbers here. -/

namespace Engula.Sst

/-- An internal key `(user_key, timestamp)`; the value kind plays no part in the order. -/
structure InternalKey where
  userKey : Bytes
  timestamp : Nat
  deriving DecidableEq, Repr

/-- User keys ascending, then timestamps descending. -/
instance : LinearOrder InternalKey :=
  LinearOrder.lift' (fun k : InternalKey => toLex (k.userKey, OrderDual.toDual k.timestamp))
    (fun a b h => by
      cases a; cases b
      simp only [toLex_inj, Prod.mk.injEq, OrderDual.toDual_inj] at h
      simp [h])

theorem InternalKey.lt_iff (a b : InternalKey) :
    a < b ↔ a.userKey < b.userKey ∨ (a.userKey = b.userKey ∧ b.timestamp < a.timestamp) := by
  change toLex (a.userKey, OrderDual.toDual a.timestamp) < toLex (b.userKey, OrderDual.toDual b.timestamp) ↔ _
  rw [Prod.Lex.lt_iff]
  rfl

structure Entry where
  ts : Nat
  key : Bytes
  value : Bytes
  deriving DecidableEq, Repr

def Entry.ikey (e : Entry) : InternalKey := ⟨e.key, e.ts⟩

/-- `BlockHandle`: where a block lies in the table file. -/
structure BlockHandle where
  offset : Nat
  size : Nat
  deriving DecidableEq, Repr

def blockHandleSize : Nat := 16

def footerSize : Nat := blockHandleSize

/-- Modelled from the spec, `format/block.rs` not being in the source: blocks by their entries. -/
structure BlockFormat where
  /-- `BlockBuilder::finish` after the given entries were added. -/
  finish : List Entry → Bytes
  /-- `BlockBuilder::approximate_size` after the given entries were added. -/
  approximateSize : List Entry → Nat
  /-- The entries a `BlockIterator` over the bytes yields, in order. -/
  entries : Bytes → List Entry
  /-- `BlockHandle::encode`. -/
  encodeHandle : BlockHandle → Bytes
  /-- `BlockHandle::decode_from`. -/
  decodeHandle : Bytes → BlockHandle

/-- Modelled from the spec: iterators yield what was added, and fitting handles decode back. -/
structure BlockFormat.Lawful (fmt : BlockFormat) : Prop where
  entries_finish : ∀ es, fmt.entries (fmt.finish es) = es
  approximateSize_eq_zero : ∀ es, fmt.approximateSize es = 0 ↔ es = []
  length_encodeHandle : ∀ h, (fmt.encodeHandle h).length = blockHandleSize
  decodeHandle_encodeHandle :
    ∀ h : BlockHandle, h.offset < 2 ^ 64 → h.size < 2 ^ 64 → fmt.decodeHandle (fmt.encodeHandle h) = h

/-! ### Big-endian numbers -/

/-- The `w` low bytes of `n`, most significant first (`put_u64` for `w = 8`). -/
def encodeBE : Nat → Nat → Bytes
  | 0, _ => []
  | w + 1, n => encodeBE w (n / 256) ++ [UInt8.ofNat (n % 256)]

/-- Bytes read as a big-endian number (`u64::from_be_bytes` on eight of them). -/
def decodeBE (bs : Bytes) : Nat := bs.foldl (fun acc b => acc * 256 + b.toNat) 0

@[simp] theorem length_encodeBE (w n : Nat) : (encodeBE w n).length = w := by
  induction w generalizing n with
  | zero => rfl
  | succ w ih => simp [encodeBE, ih]

theorem decodeBE_encodeBE (w n : Nat) : decodeBE (encodeBE w n) = n % 256 ^ w := by
  induction w generalizing n with
  | zero => simp [encodeBE, decodeBE, Nat.mod_one]
  | succ w ih =>
    have h := ih (n / 256)
    simp only [decodeBE] at h ⊢
    simp only [encodeBE, List.foldl_append, h, List.foldl_cons, List.foldl_nil,
      UInt8.toNat_ofNat_of_lt (Nat.mod_lt n (by decide : 0 < 256))]
    rw [Nat.pow_succ', Nat.mod_mul]
    simp only [UInt8.size]
    omega

@[simp] theorem decodeBE_append_singleton (bs : Bytes) (b : UInt8) :
    decodeBE (bs ++ [b]) = decodeBE bs * 256 + b.toNat := by
  simp [decodeBE, List.foldl_append]

theorem decodeBE_lt (bs : Bytes) : decodeBE bs < 256 ^ bs.length := by
  induction bs using List.reverseRecOn with
  | nil => simp [decodeBE]
  | append_singleton bs b ih =>
    have hb : b.toNat < 256 := b.toNat_lt_size
    rw [decodeBE_append_singleton, List.length_append, List.length_singleton, Nat.pow_succ]
    omega

/-- Bytes read as a number and written back at their own width are the same bytes. -/
theorem encodeBE_decodeBE (bs : Bytes) : encodeBE bs.length (decodeBE bs) = bs := by
  induction bs using List.reverseRecOn with
  | nil => rfl
  | append_singleton bs b ih =>
    have hb : b.toNat < 256 := b.toNat_lt_size
    rw [List.length_append, List.length_singleton, encodeBE, decodeBE_append_singleton,
      show (decodeBE bs * 256 + b.toNat) / 256 = decodeBE bs by omega,
      show (decodeBE bs * 256 + b.toNat) % 256 = b.toNat by omega, ih]
    exact congrArg (bs ++ [·]) (UInt8.toNat.inj (UInt8.toNat_ofNat_of_lt hb))

end Engula.Sst
