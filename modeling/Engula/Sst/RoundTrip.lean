import Engula.Sst.Reader
import Mathlib.Data.List.Chain

/-! Writing a table and reading it back. With a block layer that meets its contracts and a
sink that never fails, the builder writes its data blocks one after another, indexes each under
its last key, and ends with the index block and a footer pointing at it. Opening those bytes
succeeds, a full iteration yields the entries in the order they were added, and `get` finds
exactly the added `(ts, key)` pairs. The proof follows the builder through every `add` with
the invariant `Built`, then reads the table back block by block. -/

namespace Engula.Sst

/-- A sink whose writes never fail. -/
def neverFails : SequentialWriter := ⟨fun _ _ => .ok ()⟩

/-- The index entry of a data block written at `offset`: its last key and its handle. -/
def indexEntry (fmt : BlockFormat) (offset : Nat) (B : List Entry) : Entry :=
  ⟨(B.getLastD ⟨0, [], []⟩).ts, (B.getLastD ⟨0, [], []⟩).key,
    fmt.encodeHandle ⟨offset, (fmt.finish B).length⟩⟩

/-- The index entries of data blocks written one after another from `offset`. -/
def indexEntries (fmt : BlockFormat) : Nat → List (List Entry) → List Entry
  | _, [] => []
  | offset, B :: Bs => indexEntry fmt offset B :: indexEntries fmt (offset + (fmt.finish B).length) Bs

/-- The bytes of a table of data blocks: the blocks, the index block, and the footer. -/
def tableBytes (fmt : BlockFormat) (Bs : List (List Entry)) : Bytes :=
  (Bs.map fmt.finish).flatten ++ fmt.finish (indexEntries fmt 0 Bs) ++
    fmt.encodeHandle ⟨(Bs.map fmt.finish).flatten.length, (fmt.finish (indexEntries fmt 0 Bs)).length⟩

section Builder

variable {fmt : BlockFormat}

theorem indexEntries_append (offset : Nat) (Bs : List (List Entry)) (B : List Entry) :
    indexEntries fmt offset (Bs ++ [B]) =
      indexEntries fmt offset Bs ++ [indexEntry fmt (offset + (Bs.map fmt.finish).flatten.length) B] := by
  induction Bs generalizing offset with
  | nil => simp [indexEntries]
  | cons B' Bs ih => simp [indexEntries, ih, Nat.add_assoc]

theorem indexEntries_eq_nil {offset : Nat} {Bs : List (List Entry)} :
    indexEntries fmt offset Bs = [] ↔ Bs = [] := by
  cases Bs <;> simp [indexEntries]

theorem ikey_lt_of_add_order {ts lastTs : Nat} {key lastKey : Bytes}
    (h : key > lastKey ∨ (key = lastKey ∧ ts < lastTs)) :
    (⟨lastKey, lastTs⟩ : InternalKey) < ⟨key, ts⟩ := by
  rw [InternalKey.lt_iff]
  rcases h with h | ⟨rfl, h⟩
  · exact .inl h
  · exact .inr ⟨rfl, h⟩

/-- The builder after `es`: blocks written and indexed in order, the rest open, keys rising. -/
structure Built (fmt : BlockFormat) (b : SstBuilder) (es : List Entry) : Prop where
  error : b.error = none
  flushed : ∃ Bs : List (List Entry), (∀ B ∈ Bs, B ≠ []) ∧ es = Bs.flatten ++ b.dataBlock ∧
    b.file.writes = Bs.map fmt.finish ∧ b.file.offset = (Bs.map fmt.finish).flatten.length ∧
    b.indexBlock = indexEntries fmt 0 Bs
  last : ∀ e ∈ es.getLast?, e.ts = b.lastTs ∧ e.key = b.lastKey
  sorted : es.Chain' (fun x y => x.ikey < y.ikey)

theorem built_new (options : SstOptions) : Built fmt (SstBuilder.new options) [] :=
  ⟨rfl, ⟨[], by simp, rfl, rfl, rfl, rfl⟩, by simp, List.chain'_nil⟩

theorem Built.chain_append {b : SstBuilder} {es : List Entry} (h : Built fmt b es) {e : Entry}
    (hord : e.key > b.lastKey ∨ (e.key = b.lastKey ∧ e.ts < b.lastTs)) :
    (es ++ [e]).Chain' (fun x y => x.ikey < y.ikey) := by
  refine List.chain'_append.2 ⟨h.sorted, List.chain'_singleton _, fun x hx y hy => ?_⟩
  obtain ⟨hxt, hxk⟩ := h.last x hx
  simp only [List.head?_cons, Option.mem_def, Option.some.injEq] at hy
  subst hy
  simpa [Entry.ikey, hxt, hxk] using ikey_lt_of_add_order hord

/-- One `add` keeps `Built`. -/
theorem Built.add {b b' : SstBuilder} {es : List Entry} (h : Built fmt b es) (e : Entry)
    (hadd : b.add fmt neverFails e.ts e.key e.value = some b') : Built fmt b' (es ++ [e]) := by
  obtain ⟨Bs, hBs, hes, hw, ho, hi⟩ := h.flushed
  have hlast : ∀ x ∈ (es ++ [e]).getLast?, x.ts = e.ts ∧ x.key = e.key := by simp
  obtain ⟨ts, key, value⟩ := e
  simp only [SstBuilder.add, h.error, Option.isSome_none, Bool.false_eq_true, if_false] at hadd
  split_ifs at hadd with hord hsize
  · simp only [SstBuilder.flushDataBlock, SstFileWriter.writeBlock, neverFails,
      Option.some.injEq] at hadd
    subst hadd
    refine ⟨rfl, ⟨Bs ++ [b.dataBlock ++ [⟨ts, key, value⟩]], fun B hB => ?_, by simp [hes],
      by simp [hw], by simp [ho], by simp [hi, ho, indexEntries_append, indexEntry]⟩, hlast,
      h.chain_append hord⟩
    rcases List.mem_append.1 hB with hB | hB
    · exact hBs B hB
    · simp only [List.mem_singleton] at hB; simp [hB]
  · simp only [Option.some.injEq] at hadd
    subst hadd
    exact ⟨rfl, ⟨Bs, hBs, by simp [hes], hw, ho, hi⟩, hlast, h.chain_append hord⟩

theorem built_addAll (options : SstOptions) (es : List Entry) {b : SstBuilder}
    (h : (SstBuilder.new options).addAll fmt neverFails es = some b) : Built fmt b es := by
  induction es using List.reverseRecOn generalizing b with
  | nil => cases h; exact built_new options
  | append_singleton es e ih =>
    rw [SstBuilder.addAll_append] at h
    obtain ⟨b₀, h₀, hb⟩ := Option.bind_eq_some.1 h
    exact (ih h₀).add e hb

theorem finishIndex_eq (hfmt : fmt.Lawful) {b : SstBuilder} {Bs : List (List Entry)} (hBs : Bs ≠ [])
    (hw : b.file.writes = Bs.map fmt.finish) (ho : b.file.offset = (Bs.map fmt.finish).flatten.length)
    (hi : b.indexBlock = indexEntries fmt 0 Bs) :
    (b.finishIndex fmt neverFails).1 = .ok (tableBytes fmt Bs).length ∧
      (b.finishIndex fmt neverFails).2.file.writes.flatten = tableBytes fmt Bs := by
  have hpos : 0 < fmt.approximateSize (indexEntries fmt 0 Bs) := Nat.pos_of_ne_zero fun h0 =>
    hBs (indexEntries_eq_nil.1 ((hfmt.approximateSize_eq_zero _).1 h0))
  simp [SstBuilder.finishIndex, hpos, SstFileWriter.writeBlock, neverFails, SstFileWriter.fileSize,
    SstFooter.encode, tableBytes, hw, ho, hi, Nat.add_assoc]

theorem finishIndex_writes (hfmt : fmt.Lawful) {b : SstBuilder} {Bs : List (List Entry)} (hBs : Bs ≠ [])
    (hw : b.file.writes = Bs.map fmt.finish) (ho : b.file.offset = (Bs.map fmt.finish).flatten.length)
    (hi : b.indexBlock = indexEntries fmt 0 Bs) :
    (b.finishIndex fmt neverFails).2.file.writes = Bs.map fmt.finish ++
      [fmt.finish (indexEntries fmt 0 Bs),
        fmt.encodeHandle ⟨(Bs.map fmt.finish).flatten.length, (fmt.finish (indexEntries fmt 0 Bs)).length⟩] := by
  have hpos : 0 < fmt.approximateSize (indexEntries fmt 0 Bs) := Nat.pos_of_ne_zero fun h0 =>
    hBs (indexEntries_eq_nil.1 ((hfmt.approximateSize_eq_zero _).1 h0))
  simp [SstBuilder.finishIndex, hpos, SstFileWriter.writeBlock, neverFails, SstFooter.encode, hw, ho, hi]

theorem Built.finish_writes (hfmt : fmt.Lawful) {b : SstBuilder} {es : List Entry} (h : Built fmt b es)
    (hne : es ≠ []) :
    ∃ Bs : List (List Entry), (∀ B ∈ Bs, B ≠ []) ∧ es = Bs.flatten ∧
      (b.finish fmt neverFails).1 = .ok (tableBytes fmt Bs).length ∧
      (b.finish fmt neverFails).2.file.writes = Bs.map fmt.finish ++
        [fmt.finish (indexEntries fmt 0 Bs),
          fmt.encodeHandle ⟨(Bs.map fmt.finish).flatten.length, (fmt.finish (indexEntries fmt 0 Bs)).length⟩] := by
  obtain ⟨Bs, hBs, hes, hw, ho, hi⟩ := h.flushed
  by_cases hD : b.dataBlock = []
  · have hne' : Bs ≠ [] := by rintro rfl; simp [hD] at hes; exact hne hes
    have hsz : fmt.approximateSize b.dataBlock = 0 := (hfmt.approximateSize_eq_zero _).2 hD
    simp only [SstBuilder.finish, h.error, hsz, lt_irrefl, if_false]
    exact ⟨Bs, hBs, by simpa [hD] using hes, (finishIndex_eq hfmt hne' hw ho hi).1,
      finishIndex_writes hfmt hne' hw ho hi⟩
  · have hsz : 0 < fmt.approximateSize b.dataBlock :=
      Nat.pos_of_ne_zero fun h0 => hD ((hfmt.approximateSize_eq_zero _).1 h0)
    obtain ⟨hlt, hlk⟩ : (b.dataBlock.getLast?.getD ⟨0, [], []⟩).ts = b.lastTs ∧
        (b.dataBlock.getLast?.getD ⟨0, [], []⟩).key = b.lastKey := by
      rw [List.getLast?_eq_getLast _ hD]
      exact h.last _ (by simp [hes, List.getLast?_append, List.getLast?_eq_getLast _ hD])
    simp only [SstBuilder.finish, h.error, hsz, if_true, SstBuilder.flushDataBlock,
      SstFileWriter.writeBlock, neverFails]
    have hw' : (b.file.writes ++ [fmt.finish b.dataBlock]) = (Bs ++ [b.dataBlock]).map fmt.finish := by
      simp [hw]
    have ho' : b.file.offset + (fmt.finish b.dataBlock).length =
        ((Bs ++ [b.dataBlock]).map fmt.finish).flatten.length := by simp [ho]
    have hi' : b.indexBlock ++ [⟨b.lastTs, b.lastKey, fmt.encodeHandle ⟨b.file.offset, (fmt.finish b.dataBlock).length⟩⟩] =
        indexEntries fmt 0 (Bs ++ [b.dataBlock]) := by
      simp [hi, ho, indexEntries_append, indexEntry, hlt, hlk]
    exact ⟨Bs ++ [b.dataBlock], List.forall_mem_append.2 ⟨hBs, List.forall_mem_singleton.2 hD⟩,
      by simp [hes], (finishIndex_eq hfmt (by simp) hw' ho' hi').1, finishIndex_writes hfmt (by simp) hw' ho' hi'⟩

/-- After the last `add`, `finish` writes the entries' table and returns its length. -/
theorem Built.finish (hfmt : fmt.Lawful) {b : SstBuilder} {es : List Entry} (h : Built fmt b es)
    (hne : es ≠ []) :
    ∃ Bs : List (List Entry), (∀ B ∈ Bs, B ≠ []) ∧ es = Bs.flatten ∧
      (b.finish fmt neverFails).1 = .ok (tableBytes fmt Bs).length ∧
      (b.finish fmt neverFails).2.file.writes.flatten = tableBytes fmt Bs := by
  obtain ⟨Bs, hBs, hes, hres, hw⟩ := h.finish_writes hfmt hne
  exact ⟨Bs, hBs, hes, hres, by simp [hw, tableBytes]⟩

end Builder

/-! ### Reading the table back -/

section Reader

variable {fmt : BlockFormat}

theorem indexEntry_ikey (offset : Nat) {B : List Entry} (hB : B ≠ []) :
    (indexEntry fmt offset B).ikey = (B.getLast hB).ikey := by
  simp [indexEntry, Entry.ikey, List.getLastD_eq_getLast?, List.getLast?_eq_getLast _ hB]

theorem ikey_le_getLast {B : List Entry} (hs : B.Pairwise (fun x y => x.ikey < y.ikey)) (hB : B ≠ [])
    {e : Entry} (he : e ∈ B) : e.ikey ≤ (B.getLast hB).ikey := by
  rw [← List.dropLast_append_getLast hB] at hs he
  rcases List.mem_append.1 he with he | he
  · exact (hs.rel_of_mem_append he (List.mem_singleton_self _)).le
  · rw [List.mem_singleton.1 he]

theorem spawn_indexEntry (hfmt : fmt.Lawful) {data : Bytes} (hfit : data.length < 2 ^ 64)
    (pre rest : Bytes) (B : List Entry) (h : data = pre ++ fmt.finish B ++ rest) :
    spawn fmt (fileReader data) (indexEntry fmt pre.length B).value = some (.ok B) := by
  have hlen : pre.length + (fmt.finish B).length ≤ data.length := by simp [h]
  have hdecode := hfmt.decodeHandle_encodeHandle ⟨pre.length, (fmt.finish B).length⟩
    (show pre.length < 2 ^ 64 by omega) (show (fmt.finish B).length < 2 ^ 64 by omega)
  simp [spawn, indexEntry, hdecode, fileReader_readAt pre _ rest h, hfmt.entries_finish]

theorem yieldBlocks_indexEntries (hfmt : fmt.Lawful) {data : Bytes} (hfit : data.length < 2 ^ 64)
    (Bs : List (List Entry)) (pre rest : Bytes) (h : data = pre ++ (Bs.map fmt.finish).flatten ++ rest) :
    TwoLevelIterator.yieldBlocks (spawn fmt (fileReader data)) (indexEntries fmt pre.length Bs) =
      some (Bs.flatten, none) := by
  induction Bs generalizing pre with
  | nil => rfl
  | cons B Bs ih =>
    have hB := spawn_indexEntry hfmt hfit pre ((Bs.map fmt.finish).flatten ++ rest) B (by simp [h])
    have hBs := ih (pre ++ fmt.finish B) (by simp [h])
    rw [List.length_append] at hBs
    simp [indexEntries, TwoLevelIterator.yieldBlocks, hB, hBs]

theorem seek_indexEntries (hfmt : fmt.Lawful) {data : Bytes} (hfit : data.length < 2 ^ 64)
    (target : InternalKey) (Bs : List (List Entry)) (pre rest : Bytes)
    (h : data = pre ++ (Bs.map fmt.finish).flatten ++ rest) (hBs : ∀ B ∈ Bs, B ≠ [])
    (hs : Bs.flatten.Pairwise (fun x y => x.ikey < y.ikey)) :
    ∃ it, TwoLevelIterator.seek (spawn fmt (fileReader data)) (indexEntries fmt pre.length Bs) target =
      some (.ok it) ∧ it.current = (Bs.flatten.dropWhile (fun e => e.ikey < target)).head? := by
  induction Bs generalizing pre with
  | nil => exact ⟨⟨[], []⟩, rfl, rfl⟩
  | cons B Bs ih =>
    have hB : B ≠ [] := hBs B (List.mem_cons_self _ _)
    rw [List.flatten_cons, List.pairwise_append] at hs
    rw [indexEntries, List.flatten_cons, List.dropWhile_append]
    by_cases hlt : (B.getLast hB).ikey < target
    · have hdrop : B.dropWhile (fun e => e.ikey < target) = [] :=
        List.dropWhile_eq_nil_iff.2 fun e he => by
          simpa using lt_of_le_of_lt (ikey_le_getLast hs.1 hB he) hlt
      rw [TwoLevelIterator.seek_cons_of_lt _ (by rwa [indexEntry_ikey _ hB]), hdrop]
      have := ih (pre ++ fmt.finish B) (by simp [h]) (fun B' hB' => hBs B' (List.mem_cons_of_mem _ hB'))
        hs.2.1
      rwa [List.length_append] at this
    · obtain ⟨x, xs, hdrop⟩ : ∃ x xs, B.dropWhile (fun e => e.ikey < target) = x :: xs := by
        refine List.exists_cons_of_ne_nil fun hnil => hlt ?_
        simpa using List.dropWhile_eq_nil_iff.1 hnil _ (List.getLast_mem hB)
      rw [TwoLevelIterator.seek_cons_of_not_lt _ (by rwa [indexEntry_ikey _ hB])
        (spawn_indexEntry hfmt hfit pre ((Bs.map fmt.finish).flatten ++ rest) B (by simp [h])), hdrop]
      exact ⟨⟨x :: xs, indexEntries fmt (pre.length + (fmt.finish B).length) Bs⟩,
        by simp [TwoLevelIterator.skipEmpty], by simp [TwoLevelIterator.current]⟩

/-- `SstReader::open` on the bytes of a table reads the footer and then the index block. -/
theorem open_tableBytes (hfmt : fmt.Lawful) (Bs : List (List Entry))
    (hfit : (tableBytes fmt Bs).length < 2 ^ 64) :
    SstReader.open fmt (fileReader (tableBytes fmt Bs)) (tableBytes fmt Bs).length =
      some (.ok ⟨fileReader (tableBytes fmt Bs), (tableBytes fmt Bs).length,
        fmt.finish (indexEntries fmt 0 Bs)⟩) := by
  unfold tableBytes at hfit ⊢
  generalize (Bs.map fmt.finish).flatten = D at hfit ⊢
  generalize fmt.finish (indexEntries fmt 0 Bs) = I at hfit ⊢
  have hF := hfmt.length_encodeHandle ⟨D.length, I.length⟩
  generalize hdata : D ++ I ++ fmt.encodeHandle ⟨D.length, I.length⟩ = data at hfit ⊢
  have hfooter := fileReader_readAt (D ++ I) (fmt.encodeHandle ⟨D.length, I.length⟩) []
    (hdata.symm.trans (List.append_nil _).symm)
  have hindex := fileReader_readAt D I (fmt.encodeHandle ⟨D.length, I.length⟩) hdata.symm
  have hsize : data.length = D.length + I.length + footerSize := by
    simp [← hdata, hF, footerSize, Nat.add_assoc]
  simp only [List.length_append, hF] at hfooter
  have hdecode := hfmt.decodeHandle_encodeHandle ⟨D.length, I.length⟩
    (show D.length < 2 ^ 64 by omega) (show I.length < 2 ^ 64 by omega)
  simp [SstReader.open, hsize, footerSize, hfooter, bind, Except.bind, SstFooter.decodeFrom, hdecode,
    hindex, Functor.map, Except.map, pure, Except.pure]

/-- A table of non-empty rising blocks reads back: iteration gives the entries, `get` them. -/
theorem tableBytes_readBack (hfmt : fmt.Lawful) {Bs : List (List Entry)} (hBs : ∀ B ∈ Bs, B ≠ [])
    (hs : Bs.flatten.Pairwise (fun x y => x.ikey < y.ikey))
    (hfit : (tableBytes fmt Bs).length < 2 ^ 64) :
    ∃ r, SstReader.open fmt (fileReader (tableBytes fmt Bs)) (tableBytes fmt Bs).length = some (.ok r) ∧
      r.scan fmt = some (Bs.flatten, none) ∧
      ∀ ts key, ∃ res, r.get fmt ts key = some (.ok res) ∧
        ∀ v, res = some v ↔ ⟨ts, key, v⟩ ∈ Bs.flatten := by
  obtain ⟨rest, hdata⟩ : ∃ rest, tableBytes fmt Bs = [] ++ (Bs.map fmt.finish).flatten ++ rest :=
    ⟨_, by rw [tableBytes, List.nil_append, List.append_assoc]⟩
  refine ⟨_, open_tableBytes hfmt Bs hfit, ?_, fun ts key => ?_⟩
  · simp only [SstReader.scan, hfmt.entries_finish]
    exact yieldBlocks_indexEntries hfmt hfit Bs [] rest hdata
  · obtain ⟨it, hseek, hcur⟩ := seek_indexEntries hfmt hfit ⟨key, ts⟩ Bs [] rest hdata hBs hs
    simp only [List.length_nil] at hseek
    simp only [SstReader.get, hfmt.entries_finish, hseek, hcur]
    refine ⟨_, rfl, fun v => ?_⟩
    rw [← head?_dropWhile_eq_some_iff hs]
    generalize (Bs.flatten.dropWhile _).head? = o
    rcases o with _ | ⟨ts', key', v'⟩
    · simp
    · by_cases hk : ts' = ts ∧ key' = key
      · obtain ⟨rfl, rfl⟩ := hk
        simp
      · simp only [hk, if_false, Option.some.injEq, Entry.mk.injEq]
        exact ⟨nofun, fun h => absurd ⟨h.1, h.2.1⟩ hk⟩

end Reader

/-! ### The round trip -/

theorem Entry.pairwise_of_chain' {es : List Entry} (h : es.Chain' (fun x y => x.ikey < y.ikey)) :
    es.Pairwise (fun x y => x.ikey < y.ikey) :=
  List.pairwise_map.1 (List.chain'_iff_pairwise.1 ((List.chain'_map Entry.ikey).2 h))

/-- Build then open: the reader yields the added entries in order, and `get` finds exactly them. -/
theorem sst_round_trip {fmt : BlockFormat} (hfmt : fmt.Lawful) (options : SstOptions) {es : List Entry}
    (hne : es ≠ []) {b : SstBuilder} (hadd : (SstBuilder.new options).addAll fmt neverFails es = some b)
    (hfit : ((b.finish fmt neverFails).2.file.writes.flatten).length < 2 ^ 64) :
    ∃ size r, (b.finish fmt neverFails).1 = .ok size ∧
      SstReader.open fmt (fileReader (b.finish fmt neverFails).2.file.writes.flatten) size = some (.ok r) ∧
      r.scan fmt = some (es, none) ∧
      ∀ ts key, ∃ res, r.get fmt ts key = some (.ok res) ∧ ∀ v, res = some v ↔ ⟨ts, key, v⟩ ∈ es := by
  have hb := built_addAll options es hadd
  obtain ⟨Bs, hBs, hes, hres, hbytes⟩ := hb.finish hfmt hne
  rw [hbytes] at hfit ⊢
  obtain ⟨r, hopen, hscan, hget⟩ := tableBytes_readBack hfmt hBs (hes ▸ Entry.pairwise_of_chain' hb.sorted) hfit
  exact ⟨_, r, hres, hopen, hes ▸ hscan, hes ▸ hget⟩

/-- Three entries, which `block_size = 1` puts in three data blocks. -/
def threeEntries : List Entry := [⟨1, [1], [1]⟩, ⟨1, [2], [2]⟩, ⟨1, [3], [3]⟩]

set_option maxRecDepth 1000 in
/-- The reference format writes three data blocks of 9 bytes, a 117-byte index and the footer. -/
theorem finish_threeEntries_writes {b : SstBuilder}
    (hb : (SstBuilder.new ⟨1⟩).addAll ReferenceFormat.format neverFails threeEntries = some b) :
    (b.finish ReferenceFormat.format neverFails).2.file.writes.map List.length = [9, 9, 9, 117, 16] := by
  have h : ((SstBuilder.new ⟨1⟩).addAll ReferenceFormat.format neverFails threeEntries).map
      (fun b => (b.finish ReferenceFormat.format neverFails).2.file.writes.map List.length) =
        some [9, 9, 9, 117, 16] := rfl
  simpa [hb] using h

/-- Three entries in three blocks read back through the reference format. -/
theorem sst_round_trip_reference :
    ReferenceFormat.format.Lawful ∧ threeEntries ≠ [] ∧
      ∃ b, (SstBuilder.new ⟨1⟩).addAll ReferenceFormat.format neverFails threeEntries = some b ∧
        (b.finish ReferenceFormat.format neverFails).2.file.writes.length = 5 ∧
        ((b.finish ReferenceFormat.format neverFails).2.file.writes.flatten).length < 2 ^ 64 ∧
        ∃ size r, (b.finish ReferenceFormat.format neverFails).1 = .ok size ∧
          SstReader.open ReferenceFormat.format
            (fileReader (b.finish ReferenceFormat.format neverFails).2.file.writes.flatten) size = some (.ok r) ∧
          r.scan ReferenceFormat.format = some (threeEntries, none) ∧
          ∀ ts key, ∃ res, r.get ReferenceFormat.format ts key = some (.ok res) ∧
            ∀ v, res = some v ↔ ⟨ts, key, v⟩ ∈ threeEntries := by
  have hne : threeEntries ≠ [] := nofun
  obtain ⟨b, hb⟩ : ∃ b, (SstBuilder.new ⟨1⟩).addAll ReferenceFormat.format neverFails threeEntries = some b :=
    ⟨_, rfl⟩
  have hw := finish_threeEntries_writes hb
  have hfit : ((b.finish ReferenceFormat.format neverFails).2.file.writes.flatten).length < 2 ^ 64 := by
    simp [List.length_flatten, hw]
  exact ⟨ReferenceFormat.format_lawful, hne, b, hb, by simpa using congrArg List.length hw, hfit,
    sst_round_trip ReferenceFormat.format_lawful ⟨1⟩ hne hb hfit⟩

end Engula.Sst
