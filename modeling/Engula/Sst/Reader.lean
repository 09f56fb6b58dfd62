import Engula.Sst.Builder

/-! `SstReader` of `format/sstable.rs`: `open` reads the footer from the last `FOOTER_SIZE`
bytes and then the index block it points at; `get` seeks a two-level iterator over the index
block and the data blocks it names; `SstBlockIterGenerator::spawn` reads one data block. The
two-level iterator (`format/two_level_iterator.rs`) is not in the source and is modelled from
the spec's description of it. A `RandomAccessReader` fills a zeroed buffer from an offset and
returns how many bytes it read, which `open` ignores. -/

namespace Engula.Sst

/-- A `RandomAccessReader`: `read_at` gives the buffer back with the number of bytes read. -/
structure RandomAccessReader where
  readAt : (len offset : Nat) → Except Error (Bytes × Nat)

/-- A file holding `data`: a read past the end stops short, the rest of the buffer zero. -/
def fileReader (data : Bytes) : RandomAccessReader :=
  ⟨fun len offset =>
    let got := (data.drop offset).take len
    .ok (got ++ List.replicate (len - got.length) 0, got.length)⟩

theorem fileReader_readAt {data : Bytes} (pre blk rest : Bytes) (h : data = pre ++ blk ++ rest) :
    (fileReader data).readAt blk.length pre.length = .ok (blk, blk.length) := by
  subst h
  simp [fileReader]

structure SstReader where
  file : RandomAccessReader
  size : Nat
  indexBlock : Bytes

section Reader

variable (fmt : BlockFormat)

def SstReader.open (file : RandomAccessReader) (size : Nat) : Option (Except Error SstReader) :=
  if size < footerSize then none
  else some do
    let (footerData, _) ← file.readAt footerSize (size - footerSize)
    let footer := SstFooter.decodeFrom fmt footerData
    let (indexBlock, _) ← file.readAt footer.indexHandle.size footer.indexHandle.offset
    pure ⟨file, size, indexBlock⟩

/-- `SstBlockIterGenerator::spawn`; `none` is the failed `assert_eq!` on the bytes read. -/
def spawn (file : RandomAccessReader) (indexValue : Bytes) : Option (Except Error (List Entry)) :=
  let blockHandle := fmt.decodeHandle indexValue
  match file.readAt blockHandle.size blockHandle.offset with
  | .error e => some (.error e)
  | .ok (block, blockSize) =>
    if blockSize = blockHandle.size then some (.ok (fmt.entries block)) else none

end Reader

/-- Modelled from the spec (§4.4): the rest of the current block and the index entries after it. -/
structure TwoLevelIterator where
  block : List Entry
  index : List Entry

namespace TwoLevelIterator

variable (spawn : Bytes → Option (Except Error (List Entry)))

/-- Modelled from the spec: load blocks until one has an entry left or the index ends. -/
def skipEmpty : List Entry → List Entry → Option (Except Error TwoLevelIterator)
  | e :: block, index => some (.ok ⟨e :: block, index⟩)
  | [], [] => some (.ok ⟨[], []⟩)
  | [], ie :: index =>
    match spawn ie.value with
    | none => none
    | some (.error e) => some (.error e)
    | some (.ok block) => skipEmpty block index

/-- Modelled from the spec: `seek` at the first index entry not below the target, then inside. -/
def seek (index : List Entry) (target : InternalKey) : Option (Except Error TwoLevelIterator) :=
  match index.dropWhile (fun ie => ie.ikey < target) with
  | [] => some (.ok ⟨[], []⟩)
  | ie :: index =>
    match spawn ie.value with
    | none => none
    | some (.error e) => some (.error e)
    | some (.ok block) => skipEmpty spawn (block.dropWhile (fun e => e.ikey < target)) index

theorem seek_cons_of_lt {ie : Entry} {index : List Entry} {target : InternalKey}
    (h : ie.ikey < target) : seek spawn (ie :: index) target = seek spawn index target := by
  simp only [seek, List.dropWhile_cons, h, decide_True, if_true]

theorem seek_cons_of_not_lt {ie : Entry} {index block : List Entry} {target : InternalKey}
    (h : ¬ie.ikey < target) (hs : spawn ie.value = some (.ok block)) :
    seek spawn (ie :: index) target =
      skipEmpty spawn (block.dropWhile (fun e => e.ikey < target)) index := by
  simp [seek, List.dropWhile_cons, h, hs]

def current (it : TwoLevelIterator) : Option Entry := it.block.head?

/-- The entries a full iteration over the index's blocks yields, and the error that stops it. -/
def yieldBlocks : List Entry → Option (List Entry × Option Error)
  | [] => some ([], none)
  | ie :: index =>
    match spawn ie.value with
    | none => none
    | some (.error e) => some ([], some e)
    | some (.ok block) => (yieldBlocks index).map fun (es, err) => (block ++ es, err)

end TwoLevelIterator

section Reader

variable (fmt : BlockFormat)

/-- `SstReader::get`: seek, and return the value of an exact `(ts, key)` hit. -/
def SstReader.get (r : SstReader) (ts : Nat) (key : Bytes) : Option (Except Error (Option Bytes)) :=
  match TwoLevelIterator.seek (spawn fmt r.file) (fmt.entries r.indexBlock) ⟨key, ts⟩ with
  | none => none
  | some (.error e) => some (.error e)
  | some (.ok it) =>
    some (.ok (match it.current with
      | some version => if version.ts = ts ∧ version.key = key then some version.value else none
      | none => none))

theorem head?_dropWhile_eq_some_iff {es : List Entry} (hs : es.Pairwise (fun x y => x.ikey < y.ikey))
    (ts : Nat) (key value : Bytes) :
    (es.dropWhile (fun e => e.ikey < ⟨key, ts⟩)).head? = some ⟨ts, key, value⟩ ↔ ⟨ts, key, value⟩ ∈ es := by
  induction es with
  | nil => simp
  | cons x xs ih =>
    obtain ⟨hx, hs⟩ := List.pairwise_cons.1 hs
    by_cases hlt : x.ikey < ⟨key, ts⟩
    · have hne : x ≠ ⟨ts, key, value⟩ := by rintro rfl; exact lt_irrefl _ hlt
      simp [List.dropWhile_cons, hlt, ih hs, hne.symm]
    · have hnot : ⟨ts, key, value⟩ ∉ xs := fun hm => hlt (hx _ hm)
      simp [List.dropWhile_cons, hlt, hnot, eq_comm]

/-- A full iteration of `SstReader::new_iterator`. -/
def SstReader.scan (r : SstReader) : Option (List Entry × Option Error) :=
  TwoLevelIterator.yieldBlocks (spawn fmt r.file) (fmt.entries r.indexBlock)

end Reader

/-! ### Malformed tables -/

/-- With a reader that never fails, `open` and `spawn` panic or answer `Ok` on short reads. -/
theorem sstReader_malformed_not_err (fmt : BlockFormat) :
    (∀ file size, size < footerSize → SstReader.open fmt file size = none) ∧
      (∀ (file : RandomAccessReader) size, footerSize ≤ size →
        (∀ len offset, ∃ buf n, file.readAt len offset = .ok (buf, n)) →
        ∃ r, SstReader.open fmt file size = some (.ok r)) ∧
      (∀ (file : RandomAccessReader) indexValue block n,
        file.readAt (fmt.decodeHandle indexValue).size (fmt.decodeHandle indexValue).offset = .ok (block, n) →
        n ≠ (fmt.decodeHandle indexValue).size → spawn fmt file indexValue = none) := by
  refine ⟨fun file size h => by simp [SstReader.open, h], fun file size h hread => ?_,
    fun file indexValue block n hread hn => by simp [spawn, hread, hn]⟩
  obtain ⟨footer, n, hfooter⟩ := hread footerSize (size - footerSize)
  obtain ⟨index, m, hindex⟩ := hread (SstFooter.decodeFrom fmt footer).indexHandle.size
    (SstFooter.decodeFrom fmt footer).indexHandle.offset
  exact ⟨⟨file, size, index⟩, by simp [SstReader.open, not_lt.2 h, hfooter, hindex, bind, Except.bind, pure,
    Except.pure]⟩

/-- On an empty file `open` at size 0 panics, at `FOOTER_SIZE` is `Ok`, and `spawn` panics. -/
theorem sstReader_malformed_emptyFile :
    SstReader.open ReferenceFormat.format (fileReader []) 0 = none ∧
      (∃ r, SstReader.open ReferenceFormat.format (fileReader []) footerSize = some (.ok r)) ∧
      spawn ReferenceFormat.format (fileReader []) (ReferenceFormat.format.encodeHandle ⟨0, 5⟩) = none := by
  obtain ⟨hsize, hshort, hspawn⟩ := sstReader_malformed_not_err ReferenceFormat.format
  exact ⟨hsize _ 0 (by decide), hshort _ _ le_rfl fun _ _ => ⟨_, _, rfl⟩,
    hspawn _ _ (List.replicate 5 0) 0 rfl (by decide)⟩

end Engula.Sst
