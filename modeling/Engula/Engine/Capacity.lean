import Engula.Engine.KeySpace

/-! No `insert_no_grow` of the key space meets a full table. Outside a rehash the current table
stays below 86% of its capacity, which leaves it growth. During a rehash `next_table` has room
for every object still to move, one more for each call the rehash can still last (each moves
`ADVANCE_STEP + 1` objects and may insert one), and still ends below 86%: `Roomy` says so, and
every call keeps it, for every pattern of slot outcomes. It starts from the doubled capacity of
`next_space` at the trigger. -/

namespace Engula.Engine

variable {α κ : Type} [DecidableEq κ] (key : α → κ) (A : TableAlloc)

/-- The room `insert_no_grow` needs, outside and during a rehash. -/
def Roomy (s : KeySpace α) : Prop :=
  match s.nextSpace with
  | none => 100 * s.currentSpace.len < 86 * s.currentSpace.capacity
  | some next =>
    100 * (next.len + s.currentSpace.len + s.currentSpace.len / (advanceStep + 1)) < 86 * next.capacity

/-- `Roomy` with one insert to spare, as it holds right after an advance. -/
def RoomyAfterAdvance (s : KeySpace α) : Prop :=
  match s.nextSpace with
  | none => 100 * s.currentSpace.len < 86 * s.currentSpace.capacity
  | some next =>
    100 * (next.len + s.currentSpace.len + s.currentSpace.len / (advanceStep + 1) + 1) < 86 * next.capacity

theorem RoomyAfterAdvance.roomy {s : KeySpace α} (h : RoomyAfterAdvance s) : Roomy s := by
  cases hn : s.nextSpace with
  | none => simpa [Roomy, RoomyAfterAdvance, hn] using h
  | some next =>
    simp only [Roomy, RoomyAfterAdvance, hn] at h ⊢
    omega

theorem RawTable.growthLeft_pos {t : RawTable α} (h : 100 * t.len < 86 * t.capacity) :
    0 < t.growthLeft := by
  unfold RawTable.capacity at h
  omega

/-! ### The advance -/

/-- The loop of `advance_rehash` never meets a full `next_table`. -/
theorem moveEntries_roomy (a : Nat) (l : List α) (gl : Nat) (next : RawTable α) (slots : List Bool)
    (ha : a ≤ advanceStep)
    (h : 100 * (next.len + l.length + (l.length + a) / (advanceStep + 1)) < 86 * next.capacity) :
    ∃ fin current nx sl, moveEntries a l gl next slots = some (fin, current, nx, sl) ∧
      (fin = true → 100 * nx.len < 86 * nx.capacity) ∧
      (fin = false →
        100 * (nx.len + current.len + current.len / (advanceStep + 1) + 1) < 86 * nx.capacity) := by
  rw [advanceStep_succ] at h ⊢
  induction l generalizing a gl next slots with
  | nil =>
    refine ⟨true, _, next, slots, rfl, fun _ => ?_, nofun⟩
    simp only [List.length_nil, Nat.add_zero, Nat.zero_add, advanceStep] at h ha
    omega
  | cons o rest ih =>
    obtain ⟨nx, hins⟩ : ∃ nx, next.insertNoGrow o (takeSlot (takeSlot slots).2).1 = some nx :=
      ⟨_, RawTable.insertNoGrow_of_pos _ _ (RawTable.growthLeft_pos (by omega))⟩
    obtain ⟨hlen, hcap⟩ := RawTable.insertNoGrow_spec hins
    simp only [List.length_cons] at h
    by_cases hstep : a + 1 > advanceStep
    · refine ⟨false, ⟨rest, if (takeSlot slots).1 then gl + 1 else gl⟩, nx, (takeSlot (takeSlot slots).2).2,
        by simp [moveEntries, hins, hstep], nofun, fun _ => ?_⟩
      simp only [RawTable.len, advanceStep] at hlen h hstep ha ⊢
      omega
    · obtain ⟨fin, current, nx', sl, hmove, hfin⟩ := ih (a + 1) (if (takeSlot slots).1 then gl + 1 else gl)
        nx (takeSlot (takeSlot slots).2).2 (by omega) (by simp only [RawTable.len] at hlen h ⊢; omega)
      exact ⟨fin, current, nx', sl, by simp [moveEntries, hins, hstep, hmove], hfin⟩

theorem advanceRehash_roomy {s : KeySpace α} (h : Roomy s) :
    ∃ s', s.advanceRehash = some s' ∧ RoomyAfterAdvance s' := by
  unfold Roomy at h
  rcases hn : s.nextSpace with _ | next
  · rw [hn] at h
    exact ⟨s, by simp [KeySpace.advanceRehash, hn], by simpa [RoomyAfterAdvance, hn] using h⟩
  · rw [hn] at h
    obtain ⟨fin, current, nx, sl, hmove, hfin, hearly⟩ :=
      moveEntries_roomy 0 s.currentSpace.entries s.currentSpace.growthLeft next s.slots (Nat.zero_le _)
        (by simpa [RawTable.len] using h)
    cases fin with
    | true => exact ⟨⟨nx, none, sl⟩, by simp [KeySpace.advanceRehash, hn, hmove], hfin rfl⟩
    | false => exact ⟨⟨current, some nx, sl⟩, by simp [KeySpace.advanceRehash, hn, hmove], hearly rfl⟩

/-! ### One call -/

/-- A rehash started by `ensure_enough_space` is roomy: `next_space` gets twice the capacity. -/
theorem ensureEnoughSpace_roomy {current : RawTable α} (slots : List Bool) (hpos : 0 < current.len) :
    ∃ s', (KeySpace.ensureEnoughSpace A ⟨current, none, slots⟩) = some s' ∧ Roomy s' := by
  by_cases htrig : current.len * 100 ≥ 86 * current.capacity
  · have hroom : Roomy (⟨current, some (.withCapacity A (current.capacity * 2)), slots⟩ : KeySpace α) := by
      have hA := A.le_capacity (current.capacity * 2)
      have hle : current.len ≤ current.capacity := Nat.le_add_right _ _
      simp only [Roomy, RawTable.withCapacity, RawTable.len, RawTable.capacity, List.length_nil,
        Nat.zero_add, advanceStep] at hA hle hpos ⊢
      omega
    obtain ⟨s', hadv, hs'⟩ := advanceRehash_roomy hroom
    exact ⟨s', by simpa [KeySpace.ensureEnoughSpace, htrig] using hadv, hs'.roomy⟩
  · exact ⟨⟨current, none, slots⟩, by simp [KeySpace.ensureEnoughSpace, htrig], by
      simp only [Roomy]; omega⟩

theorem roomy_of_current {current₀ current : RawTable α} (slots : List Bool)
    (h : 100 * current₀.len < 86 * current₀.capacity)
    (hsize : 100 * current.len + 86 * current₀.capacity ≤ 100 * current₀.len + 86 * current.capacity) :
    Roomy (⟨current, none, slots⟩ : KeySpace α) := by
  simp only [Roomy]
  omega

theorem roomy_of_next {current₀ current next₀ next : RawTable α} (slots : List Bool)
    (h : 100 * (next₀.len + current₀.len + current₀.len / 65 + 1) < 86 * next₀.capacity)
    (hcur : current.len ≤ current₀.len)
    (hnext : 100 * next.len + 86 * next₀.capacity ≤ 100 * (next₀.len + 1) + 86 * next.capacity) :
    Roomy (⟨current, some next, slots⟩ : KeySpace α) := by
  have := Nat.div_le_div_right (c := 65) hcur
  simp only [Roomy, advanceStep_succ]
  omega

theorem RawTable.removeEntry_size (t : RawTable α) (k : κ) (empty : Bool) :
    100 * (t.removeEntry key k empty).2.len + 86 * t.capacity ≤
      100 * t.len + 86 * (t.removeEntry key k empty).2.capacity := by
  rcases h : (t.removeEntry key k empty).1 with _ | o
  · rw [RawTable.removeEntry_of_fst_eq_none key h]
  · have := RawTable.removeEntry_of_fst_eq_some key h
    omega

theorem get_roomy {s : KeySpace α} (h : Roomy s) (k : κ) :
    ∃ r s', s.get key k = some (r, s') ∧ Roomy s' := by
  obtain ⟨s', hadv, hs'⟩ := advanceRehash_roomy h
  rcases hg : s'.nextSpace.bind (·.get key k) with _ | o
  · exact ⟨s'.currentSpace.get key k, s', by simp [KeySpace.get, hadv, hg], hs'.roomy⟩
  · exact ⟨some o, s', by simp [KeySpace.get, hadv, hg], hs'.roomy⟩

theorem remove_roomy {s : KeySpace α} (h : Roomy s) (k : κ) :
    ∃ r s', s.remove key k = some (r, s') ∧ Roomy s' := by
  obtain ⟨s', hadv, hs'⟩ := advanceRehash_roomy h
  set current := s'.currentSpace.removeEntry key k (takeSlot s'.slots).1
  unfold RoomyAfterAdvance at hs'
  rcases hn : s'.nextSpace with _ | next
  · rw [hn] at hs'
    exact ⟨current.1, ⟨current.2, none, (takeSlot s'.slots).2⟩, by simp [KeySpace.remove, hadv, hn, current],
      roomy_of_current _ hs' (RawTable.removeEntry_size key _ k _)⟩
  · rw [hn, advanceStep_succ] at hs'
    rcases hr : next.removeEntry key k (takeSlot s'.slots).1 with ⟨_ | o, next'⟩
    · exact ⟨current.1, ⟨current.2, some next, (takeSlot s'.slots).2⟩,
        by simp [KeySpace.remove, hadv, hn, hr, current],
        roomy_of_next _ hs' (RawTable.len_removeEntry_le key _ k _) (by omega)⟩
    · have hsize := RawTable.removeEntry_size key next k (takeSlot s'.slots).1
      rw [hr] at hsize
      exact ⟨some o, ⟨s'.currentSpace, some next', (takeSlot s'.slots).2⟩,
        by simp [KeySpace.remove, hadv, hn, hr], roomy_of_next _ hs' le_rfl (by dsimp only at hsize; omega)⟩

theorem insert_roomy {s : KeySpace α} (h : Roomy s) (k : κ) (o : α) :
    ∃ r s', s.insert key A k o = some (r, s') ∧ Roomy s' := by
  obtain ⟨s', hadv, hs'⟩ := advanceRehash_roomy h
  unfold RoomyAfterAdvance at hs'
  rcases hn : s'.nextSpace with _ | next
  · rw [hn] at hs'
    have hl := length_replaceFirst key k o s'.currentSpace.entries
    rcases hr : replaceFirst key k o s'.currentSpace.entries with ⟨_ | old, entries⟩
    · obtain ⟨current, hins⟩ : ∃ current, s'.currentSpace.insertNoGrow o (takeSlot s'.slots).1 = some current :=
        ⟨_, RawTable.insertNoGrow_of_pos _ _ (RawTable.growthLeft_pos hs')⟩
      obtain ⟨s'', hens, hroomy⟩ := ensureEnoughSpace_roomy A (takeSlot s'.slots).2
        (show 0 < current.len by rw [(RawTable.insertNoGrow_spec hins).1]; omega)
      exact ⟨none, s'', by simp [KeySpace.insert, hadv, hn, hr, hins, hens], hroomy⟩
    · rw [hr] at hl
      exact ⟨some old, ⟨⟨entries, s'.currentSpace.growthLeft⟩, none, s'.slots⟩,
        by simp [KeySpace.insert, hadv, hn, hr],
        roomy_of_current _ hs' (by simp only [RawTable.len, RawTable.capacity, hl]; omega)⟩
  · rw [hn, advanceStep_succ] at hs'
    have hl := length_replaceFirst key k o next.entries
    rcases hr : replaceFirst key k o next.entries with ⟨_ | old, entries⟩
    · obtain ⟨nx, hins⟩ : ∃ nx, next.insertNoGrow o (takeSlot s'.slots).1 = some nx :=
        ⟨_, RawTable.insertNoGrow_of_pos _ _ (RawTable.growthLeft_pos (by omega))⟩
      obtain ⟨hlen, hcap⟩ := RawTable.insertNoGrow_spec hins
      exact ⟨none, ⟨(s'.currentSpace.removeEntry key k (takeSlot (takeSlot s'.slots).2).1).2, some nx,
        (takeSlot (takeSlot s'.slots).2).2⟩, by simp [KeySpace.insert, hadv, hn, hr, hins],
        roomy_of_next _ hs' (RawTable.len_removeEntry_le key _ k _) (by omega)⟩
    · rw [hr] at hl
      exact ⟨some old, ⟨s'.currentSpace, some ⟨entries, next.growthLeft⟩, s'.slots⟩,
        by simp [KeySpace.insert, hadv, hn, hr],
        roomy_of_next _ hs' le_rfl (by simp only [RawTable.len, RawTable.capacity, hl]; omega)⟩

theorem call_roomy {s : KeySpace α} (h : Roomy s) (c : KeySpace.Call α κ) :
    ∃ r s', s.call key A c = some (r, s') ∧ Roomy s' := by
  cases c with
  | insert k o => exact insert_roomy key A h k o
  | remove k => exact remove_roomy key h k
  | get k => exact get_roomy key h k

/-! ### Whole runs -/

theorem run_roomy {s : KeySpace α} (h : Roomy s) (cs : List (KeySpace.Call α κ)) :
    ∃ rs s', s.run key A cs = some (rs, s') ∧ Roomy s' := by
  induction cs generalizing s with
  | nil => exact ⟨[], s, rfl, h⟩
  | cons c cs ih =>
    obtain ⟨r, s₁, h₁, hroomy₁⟩ := call_roomy key A h c
    obtain ⟨rs, s₂, h₂, hroomy₂⟩ := ih hroomy₁
    exact ⟨r :: rs, s₂, by simp [KeySpace.run, h₁, h₂], hroomy₂⟩

theorem roomy_new (slots : List Bool) : Roomy (KeySpace.new A slots : KeySpace α) := by
  have := A.le_capacity minNumBuckets
  simp only [Roomy, KeySpace.new, RawTable.withCapacity, RawTable.len, RawTable.capacity, minNumBuckets,
    List.length_nil] at this ⊢
  omega

/-- No `insert_no_grow` along a run from `KeySpace::new` meets a table without growth left. -/
theorem keySpace_insertNoGrow_has_room (slots : List Bool) (cs : List (KeySpace.Call α κ)) :
    ∃ rs s, (KeySpace.new A slots).run key A cs = some (rs, s) :=
  let ⟨rs, s, h, _⟩ := run_roomy key A (roomy_new A slots) cs
  ⟨rs, s, h⟩

end Engula.Engine
