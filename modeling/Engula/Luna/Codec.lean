import Engula.Sst.Block

/-! The internal keys of the luna engine, `engine/luna/src/codec.rs`. A `ParsedInternalKey` is
written as its user key, its timestamp as a big-endian `u64`, and one byte for its value kind;
`decode_from` splits the last nine bytes off again. An `InternalKey` is the written bytes. Its
`==` is the derived equality of those bytes, while its `cmp` decodes both keys and compares user
keys ascending and then timestamps descending, with no regard to the value kind: two keys that
differ only in their kind are unequal and yet compare `Equal`. On the parsed keys the two agree:
`Ord for ParsedInternalKey` is a lawful comparator, and its `Equal` is their `PartialEq`.

The writers `put_timestamp`, `put_length_prefixed_slice` and `put_value` append to a buffer; the
source has no reader for them. What they write can be read back all the same: a timestamp has
eight bytes, a slice shorter than `2^64` bytes is delimited by its length, and a value is its kind
byte and then its bytes. -/

namespace Engula.Luna

open Engula.Sst (encodeBE decodeBE encodeBE_decodeBE decodeBE_encodeBE decodeBE_lt length_encodeBE)

/-! ### Value kinds -/

/-- `ValueKind`, with discriminants `0`, `1` and `255`. -/
inductive ValueKind
  | none
  | some
  | unknown
  deriving DecidableEq, Repr

def ValueKind.toU8 : ValueKind → UInt8
  | .none => 0
  | .some => 1
  | .unknown => 255

/-- `From<u8> for ValueKind`: every byte other than `0` and `1` reads as `Unknown`. -/
def ValueKind.ofU8 (v : UInt8) : ValueKind :=
  if v = 0 then .none else if v = 1 then .some else .unknown

@[simp] theorem ValueKind.ofU8_toU8 (k : ValueKind) : ValueKind.ofU8 k.toU8 = k := by
  cases k <;> decide

theorem ValueKind.toU8_ofU8 {v : UInt8} (h : v = 0 ∨ v = 1 ∨ v = 255) : (ValueKind.ofU8 v).toU8 = v := by
  rcases h with rfl | rfl | rfl <;> decide

/-! ### The codec -/

structure ParsedInternalKey where
  userKey : Bytes
  timestamp : UInt64
  valueKind : ValueKind
  deriving DecidableEq, Repr

/-- `ParsedInternalKey::encode_to_vec`: `put_slice`, `put_u64`, `put_u8`. -/
def ParsedInternalKey.encodeToVec (p : ParsedInternalKey) : Bytes :=
  p.userKey ++ encodeBE 8 p.timestamp.toNat ++ [p.valueKind.toU8]

/-- `ParsedInternalKey::decode_from`; `none` is the panic of `buf.len() - 9`. -/
def ParsedInternalKey.decodeFrom (buf : Bytes) : Option ParsedInternalKey :=
  if buf.length < 9 then none
  else
    let rest := buf.drop (buf.length - 9)
    some ⟨buf.take (buf.length - 9), UInt64.ofNat (decodeBE (rest.take 8)), ValueKind.ofU8 (rest.getD 8 0)⟩

@[simp] theorem length_encodeToVec (p : ParsedInternalKey) : p.encodeToVec.length = p.userKey.length + 9 := by
  simp [ParsedInternalKey.encodeToVec]

theorem UInt64.ofNat_toNat (t : UInt64) : UInt64.ofNat t.toNat = t :=
  UInt64.toNat.inj (UInt64.toNat_ofNat_of_lt t.toNat_lt_size)

theorem decodeFrom_encodeToVec (p : ParsedInternalKey) :
    ParsedInternalKey.decodeFrom p.encodeToVec = some p := by
  have hts : decodeBE (encodeBE 8 p.timestamp.toNat) = p.timestamp.toNat :=
    (decodeBE_encodeBE 8 _).trans (Nat.mod_eq_of_lt p.timestamp.toNat_lt_size)
  simp [ParsedInternalKey.decodeFrom, ParsedInternalKey.encodeToVec, hts, UInt64.ofNat_toNat]

theorem exists_eq_append_of_le_length {buf : Bytes} (h : 9 ≤ buf.length) :
    ∃ userKey ts k, ts.length = 8 ∧ buf = userKey ++ ts ++ [k] := by
  obtain ⟨init, k, rfl⟩ := (List.eq_nil_or_concat buf).resolve_left (by rintro rfl; simp at h)
  exact ⟨init.take (init.length - 8), init.drop (init.length - 8), k, by simp at h ⊢; omega,
    by rw [List.take_append_drop, List.concat_eq_append]⟩

theorem encodeToVec_decodeFrom {buf : Bytes} (h : 9 ≤ buf.length)
    (hk : buf.getLast? = some 0 ∨ buf.getLast? = some 1 ∨ buf.getLast? = some 255) :
    (ParsedInternalKey.decodeFrom buf).map ParsedInternalKey.encodeToVec = some buf := by
  obtain ⟨userKey, ts, k, hts, rfl⟩ := exists_eq_append_of_le_length h
  have hk' : k = 0 ∨ k = 1 ∨ k = 255 := by simpa using hk
  have hlt : decodeBE ts < UInt64.size := by
    have := decodeBE_lt ts
    rw [hts] at this
    exact this
  have hdrop : (userKey ++ ts ++ [k]).drop userKey.length = ts ++ [k] := by simp
  simp only [ParsedInternalKey.decodeFrom, List.length_append, List.length_singleton, hts,
    show ¬ userKey.length + 8 + 1 < 9 by omega, if_false, show userKey.length + 8 + 1 - 9 = userKey.length by omega,
    hdrop, Option.map_some', Option.some.injEq]
  simp [ParsedInternalKey.encodeToVec, List.take_left' hts, UInt64.toNat_ofNat_of_lt hlt,
    ← hts, encodeBE_decodeBE, ValueKind.toU8_ofU8 hk']

/-- Keys decode back from their encoding, and buffers ending in a kind byte are encodings. -/
theorem parsedInternalKey_round_trip :
    (∀ p : ParsedInternalKey, ParsedInternalKey.decodeFrom p.encodeToVec = some p) ∧
      ∀ buf : Bytes, 9 ≤ buf.length →
        (buf.getLast? = some 0 ∨ buf.getLast? = some 1 ∨ buf.getLast? = some 255) →
        (ParsedInternalKey.decodeFrom buf).map ParsedInternalKey.encodeToVec = some buf :=
  ⟨decodeFrom_encodeToVec, fun _ h hk => encodeToVec_decodeFrom h hk⟩

theorem parsedInternalKey_round_trip_nineZeros :
    9 ≤ (List.replicate 9 0 : Bytes).length ∧ (List.replicate 9 0 : Bytes).getLast? = some 0 ∧
      (ParsedInternalKey.decodeFrom (List.replicate 9 0)).map ParsedInternalKey.encodeToVec =
        some (List.replicate 9 0) :=
  ⟨by decide, by decide, parsedInternalKey_round_trip.2 _ (by decide) (.inl (by decide))⟩

/-! ### The order of internal keys -/

/-- `Ord for ParsedInternalKey`: user keys ascending, then timestamps descending. -/
def ParsedInternalKey.cmp (a b : ParsedInternalKey) : Ordering :=
  match compare a.userKey b.userKey with
  | .eq =>
    match compare a.timestamp b.timestamp with
    | .gt => .lt
    | .lt => .gt
    | .eq => .eq
  | ord => ord

/-- `InternalKey`: an encoded key's bytes, compared by the derived `==`. -/
structure InternalKey where
  bytes : Bytes
  deriving DecidableEq, Repr

def InternalKey.ofParsed (p : ParsedInternalKey) : InternalKey := ⟨p.encodeToVec⟩

def InternalKey.forLookup (userKey : Bytes) (timestamp : UInt64) : InternalKey :=
  .ofParsed ⟨userKey, timestamp, .none⟩

/-- `Ord for InternalKey`: compare the decoded keys; `none` is a panic on short bytes. -/
def InternalKey.cmp (a b : InternalKey) : Option Ordering := do
  let k1 ← ParsedInternalKey.decodeFrom a.bytes
  let k2 ← ParsedInternalKey.decodeFrom b.bytes
  pure (k1.cmp k2)

theorem ParsedInternalKey.cmp_eq_then (p q : ParsedInternalKey) :
    p.cmp q = (compare p.userKey q.userKey).then (compare q.timestamp p.timestamp) := by
  rw [compare_uInt64 q.timestamp, ← Nat.compare_swap, ← compare_uInt64]
  unfold ParsedInternalKey.cmp
  cases compare p.userKey q.userKey <;> cases compare p.timestamp q.timestamp <;> rfl

/-- `PartialEq for ParsedInternalKey`: user keys and timestamps, not the value kind. -/
def ParsedInternalKey.eq (a b : ParsedInternalKey) : Bool :=
  a.userKey == b.userKey && a.timestamp == b.timestamp

theorem transCmp_compare {α : Type} [LinearOrder α] : Batteries.TransCmp (compare : α → α → Ordering) := by
  rw [show (compare : α → α → Ordering) = (compareOfLessAndEq · ·) from
    funext₂ LinearOrder.compare_eq_compareOfLessAndEq]
  exact .compareOfLessAndEq_of_le lt_irrefl lt_trans le_of_not_lt le_antisymm

theorem ParsedInternalKey.cmp_eq_compareLex :
    ParsedInternalKey.cmp = compareLex (compareOn ParsedInternalKey.userKey)
      (flip (compareOn fun p => p.timestamp.toNat)) := by
  funext p q
  rw [cmp_eq_then, compare_uInt64]
  rfl

theorem ParsedInternalKey.cmp_eq_eq_iff {p q : ParsedInternalKey} :
    p.cmp q = .eq ↔ p.userKey = q.userKey ∧ p.timestamp = q.timestamp := by
  rw [cmp_eq_then, Ordering.then_eq_eq, compare_eq_iff_eq, compare_uInt64, compare_eq_iff_eq]
  exact and_congr_right fun _ => ⟨fun h => (UInt64.toNat.inj h).symm, fun h => congrArg _ h.symm⟩

/-- `Ord for ParsedInternalKey` is a lawful comparator whose `Equal` is `PartialEq`. -/
theorem parsedInternalKey_ord_lawful :
    Batteries.TransCmp ParsedInternalKey.cmp ∧
      ∀ p q : ParsedInternalKey, p.cmp q = .eq ↔ p.eq q = true := by
  haveI : Batteries.TransOrd Bytes := transCmp_compare
  refine ⟨ParsedInternalKey.cmp_eq_compareLex ▸ inferInstance, fun p q => ?_⟩
  rw [ParsedInternalKey.cmp_eq_eq_iff]
  simp [ParsedInternalKey.eq]

theorem InternalKey.cmp_ofParsed (p q : ParsedInternalKey) :
    (InternalKey.ofParsed p).cmp (.ofParsed q) = some (p.cmp q) := by
  simp [InternalKey.cmp, InternalKey.ofParsed, decodeFrom_encodeToVec]

theorem InternalKey.ofParsed_inj {p q : ParsedInternalKey} :
    InternalKey.ofParsed p = .ofParsed q ↔ p = q := by
  refine ⟨fun h => ?_, congrArg _⟩
  have := congrArg (ParsedInternalKey.decodeFrom ∘ InternalKey.bytes) h
  simpa [InternalKey.ofParsed, decodeFrom_encodeToVec] using this

/-- `cmp` on built keys ignores the value kind, which `==` compares. -/
theorem internalKey_cmp_ignores_valueKind (p q : ParsedInternalKey) :
    (InternalKey.ofParsed p).cmp (.ofParsed q) =
        some ((compare p.userKey q.userKey).then (compare q.timestamp p.timestamp)) ∧
      ((InternalKey.ofParsed p).cmp (.ofParsed q) = some .eq ↔
        p.userKey = q.userKey ∧ p.timestamp = q.timestamp) ∧
      (InternalKey.ofParsed p = .ofParsed q ↔
        p.userKey = q.userKey ∧ p.timestamp = q.timestamp ∧ p.valueKind = q.valueKind) := by
  refine ⟨by rw [InternalKey.cmp_ofParsed, ParsedInternalKey.cmp_eq_then], ?_, ?_⟩
  · rw [InternalKey.cmp_ofParsed, ParsedInternalKey.cmp_eq_then, Option.some.injEq,
      Ordering.then_eq_eq, compare_eq_iff_eq, compare_uInt64, compare_eq_iff_eq]
    exact and_congr_right fun _ => ⟨fun h => (UInt64.toNat.inj h).symm, fun h => congrArg _ h.symm⟩
  · rw [InternalKey.ofParsed_inj]
    cases p; cases q
    simp

example : InternalKey.forLookup [] 0 ≠ .ofParsed ⟨[], 0, .some⟩ ∧
    (InternalKey.forLookup [] 0).cmp (.ofParsed ⟨[], 0, .some⟩) = some .eq := by decide

/-! ### Writers -/

/-- `put_timestamp`: `put_u64`, big-endian. -/
def putTimestamp (buf : Bytes) (ts : UInt64) : Bytes := buf ++ encodeBE 8 ts.toNat

/-- `put_length_prefixed_slice`: the length as a big-endian `u64`, then the slice. -/
def putLengthPrefixedSlice (buf s : Bytes) : Bytes := buf ++ encodeBE 8 s.length ++ s

def putValue (buf : Bytes) : Option Bytes → Bytes
  | some value => buf ++ ValueKind.some.toU8 :: value
  | none => buf ++ [ValueKind.none.toU8]

theorem foldl_putLengthPrefixedSlice (buf : Bytes) (ss : List Bytes) :
    ss.foldl putLengthPrefixedSlice buf = buf ++ ss.flatMap fun s => encodeBE 8 s.length ++ s := by
  induction ss generalizing buf with
  | nil => simp
  | cons s ss ih => simp [ih, putLengthPrefixedSlice]

theorem encodeBE_eight_inj {m n : Nat} (hm : m < 2 ^ 64) (hn : n < 2 ^ 64)
    (h : encodeBE 8 m = encodeBE 8 n) : m = n := by
  have := congrArg decodeBE h
  rwa [decodeBE_encodeBE, decodeBE_encodeBE, Nat.mod_eq_of_lt (by simpa using hm),
    Nat.mod_eq_of_lt (by simpa using hn)] at this

theorem lengthPrefixed_append_inj {a b r r' : Bytes} (ha : a.length < 2 ^ 64) (hb : b.length < 2 ^ 64)
    (h : encodeBE 8 a.length ++ a ++ r = encodeBE 8 b.length ++ b ++ r') : a = b ∧ r = r' := by
  rw [List.append_assoc, List.append_assoc] at h
  obtain ⟨hpre, hrest⟩ := List.append_inj h (by simp)
  exact List.append_inj hrest (encodeBE_eight_inj ha hb hpre)

theorem flatMap_lengthPrefixed_inj :
    ∀ {ss ss' : List Bytes} {r r' : Bytes}, ss.length = ss'.length →
      (∀ s ∈ ss, s.length < 2 ^ 64) → (∀ s ∈ ss', s.length < 2 ^ 64) →
      (ss.flatMap fun s => encodeBE 8 s.length ++ s) ++ r =
        (ss'.flatMap fun s => encodeBE 8 s.length ++ s) ++ r' → ss = ss' ∧ r = r'
  | [], [], _, _, _, _, _, h => ⟨rfl, h⟩
  | s :: ss, s' :: ss', r, r', hlen, hs, hs', h => by
    simp only [List.flatMap_cons, List.append_assoc] at h
    rw [← List.append_assoc, ← List.append_assoc (encodeBE 8 s'.length)] at h
    obtain ⟨rfl, hrest⟩ := lengthPrefixed_append_inj (hs s (.head _)) (hs' s' (.head _)) h
    obtain ⟨rfl, rfl⟩ := flatMap_lengthPrefixed_inj (Nat.succ.inj hlen)
      (fun x hx => hs x (.tail _ hx)) (fun x hx => hs' x (.tail _ hx)) hrest
    exact ⟨rfl, rfl⟩

/-- What the codec's writers write reads back: slices, timestamps and values. -/
theorem codec_writers_read_back (buf : Bytes) :
    (∀ ss ss' : List Bytes, ss.length = ss'.length → (∀ s ∈ ss, s.length < 2 ^ 64) →
        (∀ s ∈ ss', s.length < 2 ^ 64) → ∀ rest rest',
        ss.foldl putLengthPrefixedSlice buf ++ rest = ss'.foldl putLengthPrefixedSlice buf ++ rest' →
        ss = ss' ∧ rest = rest') ∧
      (∀ ts ts' rest rest', putTimestamp buf ts ++ rest = putTimestamp buf ts' ++ rest' →
        ts = ts' ∧ rest = rest') ∧
      ∀ v v', putValue buf v = putValue buf v' → v = v' := by
  refine ⟨fun ss ss' hlen hs hs' rest rest' h => ?_, fun ts ts' rest rest' h => ?_, fun v v' h => ?_⟩
  · rw [foldl_putLengthPrefixedSlice, foldl_putLengthPrefixedSlice, List.append_assoc,
      List.append_assoc, List.append_cancel_left_eq] at h
    exact flatMap_lengthPrefixed_inj hlen hs hs' h
  · rw [putTimestamp, putTimestamp, List.append_assoc, List.append_assoc, List.append_cancel_left_eq] at h
    obtain ⟨hts, hrest⟩ := List.append_inj h (by simp)
    exact ⟨UInt64.toNat.inj (encodeBE_eight_inj ts.toNat_lt_size ts'.toNat_lt_size hts), hrest⟩
  · cases v <;> cases v' <;> simp_all [putValue, ValueKind.toU8]

/-- After `[1]` and `[2, 3]`, the nine bytes `0, …, 0, 1, 4` read back as the slice `[4]`. -/
theorem codec_writers_read_back_twoSlices :
    ([[1], [2, 3]] : List Bytes).foldl putLengthPrefixedSlice [] ++ [0, 0, 0, 0, 0, 0, 0, 1, 4] =
        ([[1], [2, 3]] : List Bytes).foldl putLengthPrefixedSlice [] ++ putLengthPrefixedSlice [] [4] ∧
      ([0, 0, 0, 0, 0, 0, 0, 1, 4] : Bytes) = putLengthPrefixedSlice [] [4] :=
  have hs : ∀ s ∈ ([[1], [2, 3]] : List Bytes), s.length < 2 ^ 64 := by decide
  have hbytes : ([[1], [2, 3]] : List Bytes).foldl putLengthPrefixedSlice [] ++ [0, 0, 0, 0, 0, 0, 0, 1, 4] =
      ([[1], [2, 3]] : List Bytes).foldl putLengthPrefixedSlice [] ++ putLengthPrefixedSlice [] [4] := by decide
  ⟨hbytes, ((codec_writers_read_back []).1 _ _ rfl hs hs _ _ hbytes).2⟩

end Engula.Luna
