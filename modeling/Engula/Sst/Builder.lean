import Engula.Sst.ReferenceFormat

/-! `SstBuilder` and `SstFileWriter` of `format/sstable.rs`. Entries go into the open data
block; once its size estimate reaches `block_size` the block is finished, written, and indexed
under the last key added. `finish` flushes the open block, then writes the index block and the
footer, the index block's handle. The sink is known by the blocks handed to its `write_all`,
and whether a write fails may depend on all of them. A write error inside `add` is kept and
stops every later call; one inside `finish` is returned once and then forgotten. -/

namespace Engula.Sst

/-- `crate::error::Error`, of which the table layer passes I/O errors on. -/
inductive Error
  | io (msg : String)
  deriving DecidableEq, Repr

structure SstOptions where
  blockSize : Nat
  deriving DecidableEq, Repr

def SstOptions.default : SstOptions := ⟨8192⟩

/-- A `SequentialWriter`: whether `write_all` succeeds may depend on every block before. -/
structure SequentialWriter where
  writeAll : List Bytes → Bytes → Except Error Unit

/-- `SstFileWriter`: the blocks handed to the sink, failed ones included, and the offset. -/
structure SstFileWriter where
  writes : List Bytes
  offset : Nat

def SstFileWriter.new : SstFileWriter := ⟨[], 0⟩

def SstFileWriter.fileSize (w : SstFileWriter) : Nat := w.offset

/-- `SstFileWriter::write_block`: the offset moves only when `write_all` succeeds. -/
def SstFileWriter.writeBlock (sink : SequentialWriter) (w : SstFileWriter) (block : Bytes) :
    Except Error BlockHandle × SstFileWriter :=
  match sink.writeAll w.writes block with
  | .error e => (.error e, { w with writes := w.writes ++ [block] })
  | .ok () => (.ok ⟨w.offset, block.length⟩, ⟨w.writes ++ [block], w.offset + block.length⟩)

structure SstFooter where
  indexHandle : BlockHandle

def SstFooter.encode (fmt : BlockFormat) (footer : SstFooter) : Bytes :=
  fmt.encodeHandle footer.indexHandle

def SstFooter.decodeFrom (fmt : BlockFormat) (buf : Bytes) : SstFooter :=
  ⟨fmt.decodeHandle buf⟩

structure SstBuilder where
  options : SstOptions
  file : SstFileWriter
  error : Option Error
  lastTs : Nat
  lastKey : Bytes
  dataBlock : List Entry
  indexBlock : List Entry

def SstBuilder.new (options : SstOptions) : SstBuilder :=
  ⟨options, .new, none, 0, [], [], []⟩

section Builder

variable (fmt : BlockFormat) (sink : SequentialWriter)

/-- `SstBuilder::flush_data_block`: finish, write and index the block under the last key. -/
def SstBuilder.flushDataBlock (b : SstBuilder) : Except Error Unit × SstBuilder :=
  let block := fmt.finish b.dataBlock
  let b := { b with dataBlock := [] }
  match b.file.writeBlock sink block with
  | (.error e, file) => (.error e, { b with file })
  | (.ok blockHandle, file) =>
    (.ok (), { b with
      file
      indexBlock := b.indexBlock ++ [⟨b.lastTs, b.lastKey, fmt.encodeHandle blockHandle⟩] })

/-- `SstBuilder::add`; `none` is the failed `assert!` on the order of keys. -/
def SstBuilder.add (b : SstBuilder) (ts : Nat) (key value : Bytes) : Option SstBuilder :=
  if b.error.isSome then some b
  else if key > b.lastKey ∨ (key = b.lastKey ∧ ts < b.lastTs) then
    let b := { b with lastTs := ts, lastKey := key, dataBlock := b.dataBlock ++ [⟨ts, key, value⟩] }
    if fmt.approximateSize b.dataBlock ≥ b.options.blockSize then
      match b.flushDataBlock fmt sink with
      | (.error e, b) => some { b with error := some e }
      | (.ok (), b) => some b
    else some b
  else none

/-- The index-and-footer half of `SstBuilder::finish`. -/
def SstBuilder.finishIndex (b : SstBuilder) : Except Error Nat × SstBuilder :=
  if fmt.approximateSize b.indexBlock > 0 then
    let block := fmt.finish b.indexBlock
    let b := { b with indexBlock := [] }
    match b.file.writeBlock sink block with
    | (.error e, file) => (.error e, { b with file })
    | (.ok indexHandle, file) =>
      match file.writeBlock sink (SstFooter.encode fmt ⟨indexHandle⟩) with
      | (.error e, file) => (.error e, { b with file })
      | (.ok _, file) => (.ok file.fileSize, { b with file })
  else (.ok b.file.fileSize, b)

def SstBuilder.finish (b : SstBuilder) : Except Error Nat × SstBuilder :=
  match b.error with
  | some e => (.error e, b)
  | none =>
    if fmt.approximateSize b.dataBlock > 0 then
      match b.flushDataBlock fmt sink with
      | (.error e, b) => (.error e, b)
      | (.ok (), b) => b.finishIndex fmt sink
    else b.finishIndex fmt sink

def SstBuilder.addAll (b : SstBuilder) (es : List Entry) : Option SstBuilder :=
  es.foldlM (fun b e => b.add fmt sink e.ts e.key e.value) b

@[simp] theorem SstBuilder.addAll_nil (b : SstBuilder) : b.addAll fmt sink [] = some b := rfl

theorem SstBuilder.addAll_append (b : SstBuilder) (es : List Entry) (e : Entry) :
    b.addAll fmt sink (es ++ [e]) = (b.addAll fmt sink es).bind (·.add fmt sink e.ts e.key e.value) := by
  simp [SstBuilder.addAll, List.foldlM_append, Option.bind_eq_bind]

inductive Call
  | add (e : Entry)
  | finish

/-- Calls in order, with the result of each `finish`; `none` is a panic. -/
def SstBuilder.run (b : SstBuilder) : List Call → Option (List (Except Error Nat) × SstBuilder)
  | [] => some ([], b)
  | .add e :: calls => (b.add fmt sink e.ts e.key e.value).bind (·.run calls)
  | .finish :: calls =>
    (((b.finish fmt sink).2).run calls).map fun (rs, b') => ((b.finish fmt sink).1 :: rs, b')

end Builder

/-! ### A write error inside `finish` -/

/-- A sink whose second `write_all` fails. -/
def failSecondWrite : SequentialWriter :=
  ⟨fun writes _ => if writes.length = 1 then .error (.io "write failed") else .ok ()⟩

/-- With `block_size` zero the index write fails in `finish`, and a second `finish` is `Ok`. -/
theorem finish_forgets_write_error (fmt : BlockFormat) (hfmt : fmt.Lawful) :
    ((SstBuilder.new ⟨0⟩).run fmt failSecondWrite [.add ⟨1, [1], [1]⟩, .finish, .finish]).map
      Prod.fst = some [.error (.io "write failed"), .ok (fmt.finish [⟨1, [1], [1]⟩]).length] := by
  have h0 : fmt.approximateSize [] = 0 := (hfmt.approximateSize_eq_zero _).2 rfl
  have hpos : ∀ e : Entry, 0 < fmt.approximateSize [e] :=
    fun e => Nat.pos_of_ne_zero fun h => by simp [hfmt.approximateSize_eq_zero] at h
  have hkey : ([1] : Bytes) > [] := List.Lex.nil
  simp [SstBuilder.run, SstBuilder.new, SstBuilder.add, SstBuilder.flushDataBlock,
    SstBuilder.finish, SstBuilder.finishIndex, SstFileWriter.writeBlock, SstFileWriter.new,
    SstFileWriter.fileSize, failSecondWrite, hkey, h0, hpos]

theorem finish_forgets_write_error_reference :
    ReferenceFormat.format.Lawful ∧
      ((SstBuilder.new ⟨0⟩).run ReferenceFormat.format failSecondWrite
        [.add ⟨1, [1], [1]⟩, .finish, .finish]).map Prod.fst =
      some [.error (.io "write failed"), .ok (ReferenceFormat.format.finish [⟨1, [1], [1]⟩]).length] :=
  ⟨ReferenceFormat.format_lawful,
    finish_forgets_write_error ReferenceFormat.format ReferenceFormat.format_lawful⟩

end Engula.Sst
