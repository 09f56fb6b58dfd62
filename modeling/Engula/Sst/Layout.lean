import Engula.Sst.RoundTrip

/-! What the builder writes and which entries it accepts. With a sink that never fails,
`finish` hands the sink the data blocks in flush order, then the index block and the footer.
The index holds one entry per data block, under the block's last key and with the block's
handle; the footer, the last `FOOTER_SIZE` bytes, is the index block's handle; and `finish`
returns the number of bytes written. `add` asserts that each internal key rises above the last
one added, starting from `last_key = []` and `last_ts = 0`, so an entry with an empty user key
is refused as the first one whatever its timestamp. -/

namespace Engula.Sst

variable {fmt : BlockFormat}

/-! ### The layout -/

theorem getElem?_indexEntries (offset : Nat) (Bs : List (List Entry)) (j : Nat) :
    (indexEntries fmt offset Bs)[j]? =
      Bs[j]?.map (indexEntry fmt (offset + ((Bs.take j).map fmt.finish).flatten.length)) := by
  induction Bs generalizing offset j with
  | nil => simp [indexEntries]
  | cons B Bs ih =>
    cases j with
    | zero => simp [indexEntries]
    | succ j => simp [indexEntries, ih, Nat.add_assoc]

/-- `finish` writes the data blocks in flush order, the index block and the footer. -/
theorem sstBuilder_finish_layout (hfmt : fmt.Lawful) (options : SstOptions) {es : List Entry}
    {b : SstBuilder} (hadd : (SstBuilder.new options).addAll fmt neverFails es = some b) :
    (es = [] → (b.finish fmt neverFails).2.file.writes = [] ∧ (b.finish fmt neverFails).1 = .ok 0) ∧
      (es ≠ [] → ∃ Bs : List (List Entry), (∀ B ∈ Bs, B ≠ []) ∧ es = Bs.flatten ∧
        (b.finish fmt neverFails).2.file.writes = Bs.map fmt.finish ++
          [fmt.finish (indexEntries fmt 0 Bs),
            fmt.encodeHandle ⟨(Bs.map fmt.finish).flatten.length, (fmt.finish (indexEntries fmt 0 Bs)).length⟩] ∧
        (∀ (j : Nat) (B : List Entry), Bs[j]? = some B → ∃ e : Entry, B.getLast? = some e ∧
          (indexEntries fmt 0 Bs)[j]? = some ⟨e.ts, e.key,
            fmt.encodeHandle ⟨((Bs.take j).map fmt.finish).flatten.length, (fmt.finish B).length⟩⟩) ∧
        (fmt.encodeHandle ⟨(Bs.map fmt.finish).flatten.length,
            (fmt.finish (indexEntries fmt 0 Bs)).length⟩).length = footerSize ∧
        ((b.finish fmt neverFails).2.file.writes.flatten).drop
            ((b.finish fmt neverFails).2.file.writes.flatten.length - footerSize) =
          fmt.encodeHandle ⟨(Bs.map fmt.finish).flatten.length, (fmt.finish (indexEntries fmt 0 Bs)).length⟩ ∧
        (b.finish fmt neverFails).1 = .ok (b.finish fmt neverFails).2.file.writes.flatten.length) := by
  refine ⟨fun hnil => ?_, fun hne => ?_⟩
  · subst hnil
    cases hadd
    have h0 : fmt.approximateSize [] = 0 := (hfmt.approximateSize_eq_zero _).2 rfl
    simp [SstBuilder.new, SstBuilder.finish, SstBuilder.finishIndex, h0, SstFileWriter.new,
      SstFileWriter.fileSize]
  obtain ⟨Bs, hBs, hes, hres, hwrites⟩ := (built_addAll options es hadd).finish_writes hfmt hne
  have hF := hfmt.length_encodeHandle ⟨(Bs.map fmt.finish).flatten.length, (fmt.finish (indexEntries fmt 0 Bs)).length⟩
  refine ⟨Bs, hBs, hes, hwrites, fun j B hB => ?_, hF, ?_, ?_⟩
  · have hB' : B ≠ [] := hBs B (List.getElem?_mem hB)
    refine ⟨B.getLast hB', List.getLast?_eq_getLast B hB', ?_⟩
    simp [getElem?_indexEntries, hB, indexEntry, List.getLastD_eq_getLast?, List.getLast?_eq_getLast B hB']
  · set F := fmt.encodeHandle ⟨(Bs.map fmt.finish).flatten.length, (fmt.finish (indexEntries fmt 0 Bs)).length⟩
    have hflat : (Bs.map fmt.finish ++ [fmt.finish (indexEntries fmt 0 Bs), F]).flatten =
        ((Bs.map fmt.finish).flatten ++ fmt.finish (indexEntries fmt 0 Bs)) ++ F := by simp
    rw [hwrites, hflat, List.length_append, hF, footerSize, Nat.add_sub_cancel, List.drop_left]
  · rw [hres, hwrites, tableBytes]
    simp [Nat.add_assoc]

/-- The three entries under `block_size = 1` are written as three data blocks. -/
theorem sstBuilder_finish_layout_threeEntries :
    ReferenceFormat.format.Lawful ∧ threeEntries ≠ [] ∧
      ∃ b, (SstBuilder.new ⟨1⟩).addAll ReferenceFormat.format neverFails threeEntries = some b ∧
        ∃ Bs : List (List Entry), Bs.length = 3 ∧ threeEntries = Bs.flatten ∧
          (b.finish ReferenceFormat.format neverFails).2.file.writes = Bs.map ReferenceFormat.format.finish ++
            [ReferenceFormat.format.finish (indexEntries ReferenceFormat.format 0 Bs),
              ReferenceFormat.format.encodeHandle ⟨(Bs.map ReferenceFormat.format.finish).flatten.length,
                (ReferenceFormat.format.finish (indexEntries ReferenceFormat.format 0 Bs)).length⟩] ∧
          (b.finish ReferenceFormat.format neverFails).1 =
            .ok (b.finish ReferenceFormat.format neverFails).2.file.writes.flatten.length := by
  have hne : threeEntries ≠ [] := nofun
  obtain ⟨b, hb⟩ : ∃ b, (SstBuilder.new ⟨1⟩).addAll ReferenceFormat.format neverFails threeEntries = some b :=
    ⟨_, rfl⟩
  obtain ⟨Bs, -, hflat, hwrites, -, -, -, hres⟩ :=
    (sstBuilder_finish_layout ReferenceFormat.format_lawful ⟨1⟩ hb).2 hne
  have hlen := congrArg List.length (finish_threeEntries_writes hb)
  rw [List.length_map, hwrites] at hlen
  simp only [List.length_append, List.length_map, List.length_cons, List.length_nil] at hlen
  exact ⟨ReferenceFormat.format_lawful, hne, b, hb, Bs, by omega, hflat, hwrites, hres⟩

/-! ### The order `add` asserts -/

theorem SstBuilder.add_isSome_iff (sink : SequentialWriter) {b : SstBuilder} (hb : b.error = none)
    (ts : Nat) (key value : Bytes) :
    (b.add fmt sink ts key value).isSome ↔ (⟨b.lastKey, b.lastTs⟩ : InternalKey) < ⟨key, ts⟩ := by
  rw [InternalKey.lt_iff]
  unfold SstBuilder.add
  simp only [hb, Option.isSome_none, Bool.false_eq_true, if_false]
  split_ifs with hord hsize
  · split <;> simpa [eq_comm] using hord
  · simpa [eq_comm] using hord
  · simpa [eq_comm] using hord

/-- Entries pass every assertion exactly when their internal keys rise from `([], 0)`. -/
theorem sstBuilder_addAll_isSome_iff (options : SstOptions) (es : List Entry) :
    ((SstBuilder.new options).addAll fmt neverFails es).isSome ↔
      (⟨0, [], []⟩ :: es).Chain' (fun x y => x.ikey < y.ikey) := by
  induction es using List.reverseRecOn with
  | nil => simp
  | append_singleton es e ih =>
    rw [SstBuilder.addAll_append, ← List.cons_append, List.chain'_append]
    rcases h : (SstBuilder.new options).addAll fmt neverFails es with _ | b
    · rw [h] at ih
      simp only [Option.none_bind, Option.isSome_none, Bool.false_eq_true, false_iff, not_and]
      exact fun hc => absurd (ih.2 hc) (by simp)
    · rw [h] at ih
      have hb := built_addAll options es h
      have hlast : ∀ x ∈ (⟨0, [], []⟩ :: es : List Entry).getLast?, x.ikey = ⟨b.lastKey, b.lastTs⟩ := by
        rcases List.eq_nil_or_concat es with rfl | ⟨es', x, rfl⟩
        · cases h
          simp [SstBuilder.new, Entry.ikey]
        · obtain ⟨hts, hkey⟩ := hb.last x (by simp)
          simp [Entry.ikey, hts, hkey, List.getLast?_cons, List.getLast?_append]
      simp only [Option.some_bind, SstBuilder.add_isSome_iff neverFails hb.error, List.head?_cons,
        Option.mem_def, Option.some.injEq, forall_eq', List.chain'_singleton, true_and]
      constructor
      · intro hlt
        refine ⟨ih.1 rfl, fun x hx => ?_⟩
        rw [hlast x hx]
        exact hlt
      · rintro ⟨-, hlt⟩
        obtain ⟨x, hx⟩ : ∃ x, (⟨0, [], []⟩ :: es : List Entry).getLast? = some x :=
          ⟨_, List.getLast?_eq_getLast _ (List.cons_ne_nil _ _)⟩
        rw [← hlast x hx]
        exact hlt x hx

/-- A first entry with an empty user key is refused: no timestamp lies below `0`. -/
theorem sstBuilder_rejects_first_empty_key (options : SstOptions) (sink : SequentialWriter)
    (ts : Nat) (value : Bytes) :
    [(⟨ts, [], value⟩ : Entry)].Chain' (fun x y => x.ikey < y.ikey) ∧
      (SstBuilder.new options).addAll fmt sink [⟨ts, [], value⟩] = none := by
  refine ⟨List.chain'_singleton _, ?_⟩
  have h : ((SstBuilder.new options).add fmt sink ts [] value).isSome ↔ _ :=
    SstBuilder.add_isSome_iff sink rfl ts [] value
  simp only [SstBuilder.new, InternalKey.lt_iff, lt_irrefl, Nat.not_lt_zero, and_false, or_self,
    iff_false, Option.not_isSome_iff_eq_none] at h
  simpa [SstBuilder.addAll] using h

end Engula.Sst
