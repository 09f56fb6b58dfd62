import Engula.Sst.Block

/-! A block format that meets every contract of `BlockFormat.Lawful`, so that theorems assuming
the contracts are not vacuous: a timestamp in unary, a byte string with a marker before each
byte, an entry behind a marker, and a handle as two big-endian `u64`s. It stands for no format
of the source; the source's own block format is opaque to the spec. -/

namespace Engula.Sst.ReferenceFormat

/-- A number in unary, ended by a zero byte. -/
def putNat : Nat → Bytes
  | 0 => [0]
  | n + 1 => 1 :: putNat n

/-- Read a number written by `putNat`, and the bytes after it. -/
def getNat : Bytes → Nat × Bytes
  | [] => (0, [])
  | b :: rest =>
    if b = 1 then
      match getNat rest with
      | (n, r) => (n + 1, r)
    else (0, rest)

/-- Each byte behind a marker `1`, ended by a zero byte. -/
def putBytes (bs : Bytes) : Bytes := bs.flatMap (fun b => [1, b]) ++ [0]

def getBytes : Bytes → Bytes × Bytes
  | b :: c :: rest =>
    if b = 1 then
      match getBytes rest with
      | (bs, r) => (c :: bs, r)
    else ([], c :: rest)
  | _ => ([], [])

theorem getNat_putNat (n : Nat) (rest : Bytes) : getNat (putNat n ++ rest) = (n, rest) := by
  induction n with
  | zero => simp [putNat, getNat]
  | succ n ih => simp [putNat, getNat, ih]

theorem getBytes_putBytes (bs rest : Bytes) : getBytes (putBytes bs ++ rest) = (bs, rest) := by
  induction bs with
  | nil => rcases rest with _ | ⟨c, rest⟩ <;> simp [putBytes, getBytes]
  | cons b bs ih =>
    simp only [putBytes, List.flatMap_cons, List.cons_append, List.nil_append, List.append_assoc] at ih ⊢
    simp [getBytes, ih]

def putEntry (e : Entry) : Bytes := putNat e.ts ++ putBytes e.key ++ putBytes e.value

/-- A block: each entry behind a marker `1`. -/
def finish (es : List Entry) : Bytes := es.flatMap (fun e => 1 :: putEntry e)

/-- Read at most `fuel` entries. -/
def getEntries : Nat → Bytes → List Entry
  | 0, _ => []
  | _ + 1, [] => []
  | fuel + 1, _ :: bs =>
    match getNat bs with
    | (ts, r) =>
      match getBytes r with
      | (key, r) =>
        match getBytes r with
        | (value, r) => ⟨ts, key, value⟩ :: getEntries fuel r

theorem length_le_length_finish (es : List Entry) : es.length ≤ (finish es).length := by
  induction es with
  | nil => simp [finish]
  | cons e es ih =>
    simp only [finish, List.flatMap_cons, List.length_append, List.length_cons] at ih ⊢
    omega

theorem getEntries_finish (es : List Entry) (fuel : Nat) (h : es.length ≤ fuel) :
    getEntries fuel (finish es) = es := by
  induction es generalizing fuel with
  | nil => cases fuel <;> rfl
  | cons e es ih =>
    obtain ⟨fuel, rfl⟩ : ∃ f, fuel = f + 1 := ⟨fuel - 1, by simp at h; omega⟩
    simp only [finish, List.flatMap_cons, List.cons_append, putEntry, List.append_assoc] at ih ⊢
    simp [getEntries, getNat_putNat, getBytes_putBytes, ih fuel (by simp at h; omega)]

def format : BlockFormat where
  finish := finish
  approximateSize es := (finish es).length
  entries bs := getEntries bs.length bs
  encodeHandle h := encodeBE 8 h.offset ++ encodeBE 8 h.size
  decodeHandle bs := ⟨decodeBE (bs.take 8), decodeBE ((bs.drop 8).take 8)⟩

theorem format_lawful : format.Lawful where
  entries_finish es := getEntries_finish es _ (length_le_length_finish es)
  approximateSize_eq_zero es := by
    cases es with
    | nil => simp [format, finish]
    | cons e es => simp [format, finish]
  length_encodeHandle h := by simp [format, blockHandleSize]
  decodeHandle_encodeHandle h ho hs := by
    have hlen : ∀ n, (encodeBE 8 n).length = 8 := fun n => length_encodeBE 8 n
    have h64 : (2 : Nat) ^ 64 = 256 ^ 8 := rfl
    rw [h64] at ho hs
    simp only [format, List.take_left' (hlen _), List.drop_left' (hlen _),
      List.take_of_length_le (hlen _).le, decodeBE_encodeBE, Nat.mod_eq_of_lt ho, Nat.mod_eq_of_lt hs]

end Engula.Sst.ReferenceFormat
