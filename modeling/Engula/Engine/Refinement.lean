import Engula.Engine.KeySpace
import Mathlib.Data.List.Perm.Basic

/-! What the key space stands for: a finite map from keys to objects. The objects it stores are
those of `next_space` followed by those of the current table, and the map sends a key to the
first of them under it, which is what `get` finds. Along every run whose inserts store an object
under its own key, each key is stored at most once across the two tables, `get` and `remove`
answer what the map holds, and every call changes the map as a map operation would. Only the
answer of `insert` departs: when a rehash is under way after the call's advance it is what
`next_space` holds, `None` for a key the rehash has not moved yet. -/

namespace Engula.Engine

variable {α κ : Type} [DecidableEq κ] (key : α → κ)

/-! ### Lists of objects under distinct keys -/

section Lists

theorem find?_key_eq_some_iff {l : List α} (hl : (l.map key).Nodup) {k : κ} {x : α} :
    l.find? (key · = k) = some x ↔ x ∈ l ∧ key x = k := by
  constructor
  · exact fun h => ⟨List.mem_of_find?_eq_some h, by simpa using List.find?_some h⟩
  · rintro ⟨hx, hk⟩
    induction l with
    | nil => cases hx
    | cons y ys ih =>
      rw [List.map_cons, List.nodup_cons] at hl
      by_cases hy : key y = k
      · obtain rfl : y = x := by
          rcases List.mem_cons.1 hx with rfl | hx
          · rfl
          · exact absurd (hy.trans hk.symm ▸ List.mem_map_of_mem key hx) hl.1
        simp [List.find?_cons, hy]
      · have hx' : x ∈ ys := (List.mem_cons.1 hx).resolve_left fun h => hy (h ▸ hk)
        simp [List.find?_cons, hy, ih hl.2 hx']

theorem find?_key_of_perm {l l' : List α} (hp : l.Perm l') (hl : (l.map key).Nodup) (k : κ) :
    l.find? (key · = k) = l'.find? (key · = k) := by
  have hl' : (l'.map key).Nodup := (hp.map key).nodup_iff.1 hl
  refine Option.ext fun x => ?_
  simp only [Option.mem_def, find?_key_eq_some_iff key hl, find?_key_eq_some_iff key hl', hp.mem_iff]

theorem find?_key_eraseP {l : List α} (hl : (l.map key).Nodup) (k k' : κ) :
    (l.eraseP (key · = k)).find? (key · = k') = if k' = k then none else l.find? (key · = k') := by
  induction l with
  | nil => simp
  | cons y ys ih =>
    rw [List.map_cons, List.nodup_cons] at hl
    by_cases hy : key y = k
    · rw [List.eraseP_cons_of_pos (by simpa using hy)]
      split_ifs with hk
      · exact List.find?_eq_none.2 fun x hx hxk => hl.1 (by
          simpa [hy, ← hk, show key x = k' by simpa using hxk] using List.mem_map_of_mem key hx)
      · simp [List.find?_cons, hy, Ne.symm hk]
    · rw [List.eraseP_cons_of_neg (by simpa using hy), List.find?_cons, List.find?_cons, ih hl.2]
      by_cases hyk : key y = k' <;> simp [hyk]
      rintro rfl
      exact hy hyk

theorem nodup_keys_eraseP {l : List α} (hl : (l.map key).Nodup) (k : κ) :
    ((l.eraseP (key · = k)).map key).Nodup :=
  ((List.eraseP_sublist l).map key).nodup hl

theorem replaceFirst_perm {k : κ} (o : α) {l : List α} (hfound : (l.find? (key · = k)).isSome) :
    (replaceFirst key k o l).2.Perm (o :: l.eraseP (key · = k)) := by
  induction l with
  | nil => cases hfound
  | cons x xs ih =>
    by_cases hx : key x = k
    · simp [replaceFirst, hx]
    · simp only [List.find?_cons, hx, decide_False] at hfound
      simp only [replaceFirst, hx, if_false,
        @List.eraseP_cons_of_neg _ x xs (fun y => decide (key y = k)) (by simpa using hx)]
      exact ((ih hfound).cons x).trans (List.Perm.swap o x _)

theorem replaceFirst_hit_perm {k : κ} {o old : α} {n entries : List α} (c : List α)
    (hr : replaceFirst key k o n = (some old, entries)) :
    (entries ++ c).Perm (o :: (n ++ c).eraseP (key · = k)) := by
  have hfst : n.find? (key · = k) = some old := by rw [← replaceFirst_fst key k o, hr]
  have hperm := replaceFirst_perm key o (l := n) (by rw [hfst]; rfl)
  rw [hr] at hperm
  rw [List.eraseP_append_left (List.find?_some hfst) _ (List.mem_of_find?_eq_some hfst)]
  exact hperm.append_right c

theorem replaceFirst_miss_perm {k : κ} (o : α) {n : List α} (c : List α)
    (hr : (replaceFirst key k o n).1 = none) :
    (n ++ [o] ++ c.eraseP (key · = k)).Perm (o :: (n ++ c).eraseP (key · = k)) := by
  rw [replaceFirst_fst] at hr
  rw [List.eraseP_append_right _ fun b hb => by simpa using List.find?_eq_none.1 hr b hb,
    List.append_assoc, List.singleton_append]
  exact List.perm_middle

theorem find?_key_cons_eraseP {l : List α} (hl : (l.map key).Nodup) {k : κ} {o : α} (hk : key o = k)
    (k' : κ) :
    (o :: l.eraseP (key · = k)).find? (key · = k') = Function.update (fun k => l.find? (key · = k)) k (some o) k' := by
  by_cases hk' : k' = k
  · subst hk'
    simp [List.find?_cons, hk]
  · simp [List.find?_cons, hk, Ne.symm hk', hk', find?_key_eraseP key hl, Function.update_noteq]

theorem nodup_keys_cons_eraseP {l : List α} (hl : (l.map key).Nodup) {k : κ} {o : α} (hk : key o = k) :
    ((o :: l.eraseP (key · = k)).map key).Nodup := by
  refine List.nodup_cons.2 ⟨fun hmem => ?_, nodup_keys_eraseP key hl k⟩
  obtain ⟨x, hx, hxk⟩ := List.mem_map.1 hmem
  have := find?_key_eraseP key hl k k
  rw [if_pos rfl, List.find?_eq_none] at this
  exact this x hx (by simpa [hk] using hxk)

end Lists

/-! ### The map a key space stands for -/

namespace KeySpace

/-- The objects of a key space: those of `next_space`, then those of the current table. -/
def objects (s : KeySpace α) : List α := (s.nextSpace.map RawTable.entries).getD [] ++ s.currentSpace.entries

/-- The map a key space stands for. -/
def lookup (s : KeySpace α) (k : κ) : Option α := s.objects.find? (key · = k)

/-- Each key is stored at most once across the two tables. -/
def Unique (s : KeySpace α) : Prop := (s.objects.map key).Nodup

/-- A rehash is under way after the call's advance and `k` is not in `next_space`. -/
def insertMisses (s : KeySpace α) (k : κ) : Bool :=
  s.advanceRehash.any fun s₁ => s₁.nextSpace.any fun next => (next.get key k).isNone

theorem lookup_eq (s : KeySpace α) (k : κ) :
    s.lookup key k = (s.nextSpace.bind (·.get key k)).or (s.currentSpace.get key k) := by
  rcases hn : s.nextSpace with _ | next <;> simp [lookup, objects, hn, RawTable.get, List.find?_append]

end KeySpace

/-! ### Each call -/

section Calls

variable (A : TableAlloc)

theorem moveEntries_shape {a gl : Nat} {l : List α} {next current nx : RawTable α} {slots sl : List Bool}
    {fin : Bool} (h : moveEntries a l gl next slots = some (fin, current, nx, sl)) :
    nx.entries ++ current.entries = next.entries ++ l ∧ (fin = true → current.entries = []) := by
  induction l generalizing a gl next slots with
  | nil =>
    simp only [moveEntries, Option.some.injEq, Prod.mk.injEq] at h
    obtain ⟨rfl, rfl, rfl, -⟩ := h
    exact ⟨rfl, fun _ => rfl⟩
  | cons o rest ih =>
    simp only [moveEntries] at h
    rcases hins : next.insertNoGrow o (takeSlot (takeSlot slots).2).1 with _ | nx₁
    · simp [hins] at h
    · have hnx₁ := RawTable.entries_of_insertNoGrow hins
      by_cases hstep : a + 1 > advanceStep
      · simp only [hins, hstep, if_true, Option.some.injEq, Prod.mk.injEq] at h
        obtain ⟨rfl, rfl, rfl, -⟩ := h
        exact ⟨by simp [hnx₁], nofun⟩
      · simp only [hins, hstep, if_false] at h
        obtain ⟨hcat, hfin⟩ := ih h
        exact ⟨by simp [hcat, hnx₁], hfin⟩

/-- An advance keeps the objects, in order. -/
theorem advanceRehash_objects {s s' : KeySpace α} (h : s.advanceRehash = some s') : s'.objects = s.objects := by
  unfold KeySpace.advanceRehash at h
  rcases hn : s.nextSpace with _ | next
  · simp only [hn, Option.some.injEq] at h
    rw [← h]
  · simp only [hn] at h
    rcases hmove : moveEntries 0 s.currentSpace.entries s.currentSpace.growthLeft next s.slots with
      _ | ⟨_ | _, current, nx, sl⟩ <;> simp only [hmove, Option.some.injEq, reduceCtorEq] at h <;>
      obtain ⟨hcat, hfin⟩ := moveEntries_shape hmove <;> subst h
    · simp [KeySpace.objects, hn, ← hcat]
    · simp [KeySpace.objects, hn, ← hcat, hfin rfl]

theorem get_spec {s s' : KeySpace α} {k : κ} {r : Option α} (h : s.get key k = some (r, s')) :
    r = s.lookup key k ∧ s'.objects = s.objects := by
  rw [KeySpace.get, Option.bind_eq_bind, Option.bind_eq_some] at h
  obtain ⟨s₁, hadv, h⟩ := h
  have hobj := advanceRehash_objects hadv
  have hlk : s.lookup key k = s₁.lookup key k := by simp only [KeySpace.lookup, hobj]
  rw [hlk, KeySpace.lookup_eq]
  rcases hg : s₁.nextSpace.bind (·.get key k) with _ | o <;>
    simp only [hg, pure, Option.some.injEq, Prod.mk.injEq] at h <;> obtain ⟨rfl, rfl⟩ := h
  · exact ⟨by simp, hobj⟩
  · exact ⟨by simp, hobj⟩

theorem remove_spec {s s' : KeySpace α} {k : κ} {r : Option α} (h : s.remove key k = some (r, s')) :
    r = s.lookup key k ∧ s'.objects = s.objects.eraseP (key · = k) := by
  rw [KeySpace.remove, Option.bind_eq_bind, Option.bind_eq_some] at h
  obtain ⟨s₁, hadv, h⟩ := h
  have hobj := advanceRehash_objects hadv
  rw [show s.lookup key k = s₁.lookup key k by simp only [KeySpace.lookup, hobj], ← hobj,
    KeySpace.lookup_eq]
  rcases hn : s₁.nextSpace with _ | next
  · simp only [hn, Option.map_none', pure, Option.some.injEq, Prod.mk.injEq] at h
    obtain ⟨rfl, rfl⟩ := h
    simp [KeySpace.objects, hn]
  · rcases hr : next.removeEntry key k (takeSlot s₁.slots).1 with ⟨_ | o, next'⟩
    · have hg : next.get key k = none := by rw [← RawTable.removeEntry_fst key next k, hr]
      simp only [hn, Option.map_some', hr, pure, Option.some.injEq, Prod.mk.injEq] at h
      obtain ⟨rfl, rfl⟩ := h
      refine ⟨by simp [hg], ?_⟩
      simp only [KeySpace.objects, hn, Option.map_some', Option.getD_some, RawTable.entries_removeEntry]
      exact (List.eraseP_append_right _ fun b hb => by simpa using List.find?_eq_none.1 hg b hb).symm
    · have hg : next.get key k = some o := by rw [← RawTable.removeEntry_fst key next k, hr]
      have hnext' : next'.entries = next.entries.eraseP (key · = k) := by
        rw [← RawTable.entries_removeEntry key next k, hr]
      simp only [hn, Option.map_some', hr, pure, Option.some.injEq, Prod.mk.injEq] at h
      obtain ⟨rfl, rfl⟩ := h
      refine ⟨by simp [hg], ?_⟩
      simp only [KeySpace.objects, hn, Option.map_some', Option.getD_some, hnext']
      exact (List.eraseP_append_left (List.find?_some hg) _ (List.mem_of_find?_eq_some hg)).symm

theorem ensureEnoughSpace_objects {s s' : KeySpace α} (h : s.ensureEnoughSpace A = some s') :
    s'.objects = s.objects := by
  unfold KeySpace.ensureEnoughSpace at h
  dsimp only at h
  split_ifs at h with hsome
  · cases h; rfl
  · rw [advanceRehash_objects h]
    simp [KeySpace.objects, Option.not_isSome_iff_eq_none.1 hsome, RawTable.withCapacity]
  · cases h; rfl

/-- An insert stores `o` under `k`, answering from `next_space` during a rehash. -/
theorem insert_spec {s s' : KeySpace α} {k : κ} {o : α} {r : Option α}
    (h : s.insert key A k o = some (r, s')) :
    ∃ s₁, s.advanceRehash = some s₁ ∧ r = (s₁.nextSpace.map (·.get key k)).getD (s.lookup key k) ∧
      s'.objects.Perm (o :: s.objects.eraseP (key · = k)) := by
  rw [KeySpace.insert, Option.bind_eq_bind, Option.bind_eq_some] at h
  obtain ⟨s₁, hadv, h⟩ := h
  have hobj := advanceRehash_objects hadv
  refine ⟨s₁, hadv, ?_⟩
  rw [show s.lookup key k = s₁.lookup key k by simp only [KeySpace.lookup, hobj], ← hobj,
    KeySpace.lookup_eq]
  rcases hn : s₁.nextSpace with _ | next
  · have hfst := replaceFirst_fst key k o s₁.currentSpace.entries
    rcases hr : replaceFirst key k o s₁.currentSpace.entries with ⟨_ | old, entries⟩ <;>
      rw [hr] at hfst <;> simp only [hn, hr] at h
    · rcases hins : s₁.currentSpace.insertNoGrow o (takeSlot s₁.slots).1 with _ | current
      · simp [hins] at h
      · simp only [hins, Option.bind_eq_bind, Option.some_bind, Option.bind_eq_some, pure,
          Option.some.injEq, Prod.mk.injEq] at h
        obtain ⟨s₂, hens, rfl, rfl⟩ := h
        refine ⟨by simp [RawTable.get, ← hfst], ?_⟩
        rw [ensureEnoughSpace_objects A hens]
        simpa [KeySpace.objects, hn, RawTable.entries_of_insertNoGrow hins] using
          replaceFirst_miss_perm key o [] (by rw [hr])
    · simp only [pure, Option.some.injEq, Prod.mk.injEq] at h
      obtain ⟨rfl, rfl⟩ := h
      exact ⟨by simp [RawTable.get, ← hfst], by simpa [KeySpace.objects, hn] using replaceFirst_hit_perm key [] hr⟩
  · have hfst := replaceFirst_fst key k o next.entries
    rcases hr : replaceFirst key k o next.entries with ⟨_ | old, entries⟩ <;>
      rw [hr] at hfst <;> simp only [hn, hr] at h
    · rcases hins : next.insertNoGrow o (takeSlot s₁.slots).1 with _ | nx
      · simp [hins] at h
      · simp only [hins, Option.bind_eq_bind, Option.some_bind, pure, Option.some.injEq,
          Prod.mk.injEq] at h
        obtain ⟨rfl, rfl⟩ := h
        refine ⟨by simp [RawTable.get, ← hfst], ?_⟩
        simpa [KeySpace.objects, hn, RawTable.entries_of_insertNoGrow hins] using
          replaceFirst_miss_perm key o s₁.currentSpace.entries (by rw [hr])
    · simp only [pure, Option.some.injEq, Prod.mk.injEq] at h
      obtain ⟨rfl, rfl⟩ := h
      exact ⟨by simp [RawTable.get, ← hfst],
        by simpa [KeySpace.objects, hn] using replaceFirst_hit_perm key s₁.currentSpace.entries hr⟩

end Calls

/-! ### The finite map -/

section Map

variable (A : TableAlloc)

theorem lookup_of_perm {s : KeySpace α} {l : List α} (hp : s.objects.Perm l) (hl : (l.map key).Nodup) :
    s.lookup key = fun k => l.find? (key · = k) :=
  funext (find?_key_of_perm key hp ((hp.map key).nodup_iff.2 hl))

/-- `insert(k, o)` sets the map at `k` to `o` and answers its old value unless `insertMisses`. -/
theorem insert_refines {s s' : KeySpace α} {k : κ} {o : α} {r : Option α} (hk : key o = k)
    (hu : s.Unique key) (h : s.insert key A k o = some (r, s')) :
    s'.Unique key ∧ s'.lookup key = Function.update (s.lookup key) k (some o) ∧
      r = if s.insertMisses key k then none else s.lookup key k := by
  obtain ⟨s₁, hadv, hr, hp⟩ := insert_spec key A h
  have hnd := nodup_keys_cons_eraseP key hu hk
  refine ⟨(hp.map key).nodup_iff.2 hnd, ?_, ?_⟩
  · rw [lookup_of_perm key hp hnd]
    exact funext (find?_key_cons_eraseP key hu hk)
  · have hlk : s.lookup key k = s₁.lookup key k := by simp only [KeySpace.lookup, advanceRehash_objects hadv]
    rw [hlk, KeySpace.lookup_eq]
    rcases hn : s₁.nextSpace with _ | next
    · simp [hr, hn, hlk, KeySpace.lookup_eq, KeySpace.insertMisses, hadv]
    · rcases hg : next.get key k with _ | x <;> simp [hr, hn, hg, KeySpace.insertMisses, hadv]

theorem remove_refines {s s' : KeySpace α} {k : κ} {r : Option α} (hu : s.Unique key)
    (h : s.remove key k = some (r, s')) :
    r = s.lookup key k ∧ s'.Unique key ∧ s'.lookup key = Function.update (s.lookup key) k none := by
  obtain ⟨hr, hobj⟩ := remove_spec key h
  refine ⟨hr, by rw [KeySpace.Unique, hobj]; exact nodup_keys_eraseP key hu k, funext fun k' => ?_⟩
  rw [KeySpace.lookup, hobj, find?_key_eraseP key hu]
  by_cases hk' : k' = k
  · subst hk'
    simp
  · simp [hk', Function.update_noteq, KeySpace.lookup]

/-- What a finite map answers to a call, and the map after it. -/
def mapCall (m : κ → Option α) : KeySpace.Call α κ → Option α × (κ → Option α)
  | .insert k o => (m k, Function.update m k (some o))
  | .remove k => (m k, Function.update m k none)
  | .get k => (m k, m)

/-- A run of calls on a finite map: the answers, and the map at the end. -/
def mapRun (m : κ → Option α) : List (KeySpace.Call α κ) → List (Option α) × (κ → Option α)
  | [] => ([], m)
  | c :: cs => ((mapCall m c).1 :: (mapRun (mapCall m c).2 cs).1, (mapRun (mapCall m c).2 cs).2)

/-- An insert whose object carries the key it is stored under. -/
def KeySpace.Call.WellKeyed : KeySpace.Call α κ → Prop
  | .insert k o => key o = k
  | _ => True

/-- The space's answer against the map's: equal, but `None` for an insert when `insertMisses`. -/
def KeySpace.Call.Agrees (s : KeySpace α) : KeySpace.Call α κ → Option α → Option α → Prop
  | .insert k _, r, r' => r = if s.insertMisses key k then none else r'
  | _, r, r' => r = r'

theorem call_refines {s s' : KeySpace α} {c : KeySpace.Call α κ} {r : Option α} (hu : s.Unique key)
    (hw : c.WellKeyed key) (h : s.call key A c = some (r, s')) :
    s'.Unique key ∧ s'.lookup key = (mapCall (s.lookup key) c).2 ∧ c.Agrees key s r (mapCall (s.lookup key) c).1 := by
  cases c with
  | insert k o => exact insert_refines key A hw hu h
  | remove k =>
    obtain ⟨hr, hu', hlk⟩ := remove_refines key hu h
    exact ⟨hu', hlk, hr⟩
  | get k =>
    obtain ⟨hr, hobj⟩ := get_spec key h
    exact ⟨by rw [KeySpace.Unique, hobj]; exact hu, by unfold KeySpace.lookup; rw [hobj]; rfl, hr⟩

theorem run_refines {s s' : KeySpace α} {cs : List (KeySpace.Call α κ)} {rs : List (Option α)}
    (hu : s.Unique key) (hw : ∀ c ∈ cs, c.WellKeyed key) (h : s.run key A cs = some (rs, s')) :
    s'.Unique key ∧ s'.lookup key = (mapRun (s.lookup key) cs).2 := by
  induction cs generalizing s rs with
  | nil =>
    simp only [KeySpace.run, Option.some.injEq, Prod.mk.injEq] at h
    obtain ⟨rfl, rfl⟩ := h
    exact ⟨hu, rfl⟩
  | cons c cs ih =>
    simp only [KeySpace.run, Option.bind_eq_bind, Option.bind_eq_some, pure, Option.some.injEq,
      Prod.mk.injEq] at h
    obtain ⟨⟨r, s₁⟩, h₁, ⟨rs', s₂⟩, h₂, rfl, rfl⟩ := h
    obtain ⟨hu₁, hlk₁, -⟩ := call_refines key A hu (hw c (List.mem_cons_self _ _)) h₁
    obtain ⟨hu₂, hlk₂⟩ := ih hu₁ (fun c' hc' => hw c' (List.mem_cons_of_mem _ hc')) h₂
    rw [hlk₁] at hlk₂
    exact ⟨hu₂, hlk₂⟩

/-- Runs from `KeySpace::new` hold the map's objects, and every next call refines the map's. -/
theorem keySpace_refines_map (slots : List Bool) {cs : List (KeySpace.Call α κ)} {rs : List (Option α)}
    {s : KeySpace α} (hw : ∀ c ∈ cs, c.WellKeyed key) (h : (KeySpace.new A slots).run key A cs = some (rs, s)) :
    s.Unique key ∧ s.lookup key = (mapRun (fun _ => none) cs).2 ∧
      ∀ (c : KeySpace.Call α κ) r s', c.WellKeyed key → s.call key A c = some (r, s') →
        s'.lookup key = (mapCall (s.lookup key) c).2 ∧ c.Agrees key s r (mapCall (s.lookup key) c).1 := by
  obtain ⟨hu, hlk⟩ := run_refines key A (show (KeySpace.new A slots : KeySpace α).Unique key from List.nodup_nil) hw h
  exact ⟨hu, hlk, fun c r s' hc hcall => (call_refines key A hu hc hcall).2⟩

/-- Tables of exactly the capacity asked for. -/
def exactAlloc : TableAlloc := ⟨id, fun _ => le_rfl⟩

def insertGetRemove : List (KeySpace.Call Nat Nat) := [.insert 1 1, .get 1, .remove 1]

/-- After the run the map is empty, and `insert(2, 2)` answers `None` as the map does. -/
theorem keySpace_refines_map_insertGetRemove :
    (∀ c ∈ insertGetRemove, c.WellKeyed id) ∧ ∃ rs s, (KeySpace.new exactAlloc []).run id exactAlloc insertGetRemove = some (rs, s) ∧
      s.Unique id ∧ s.lookup id = (mapRun (fun _ => none) insertGetRemove).2 ∧
      (KeySpace.Call.insert 2 2).WellKeyed id ∧ ∃ r s', s.call id exactAlloc (.insert 2 2) = some (r, s') ∧
        s'.lookup id = (mapCall (s.lookup id) (.insert 2 2)).2 ∧
        (KeySpace.Call.insert 2 2).Agrees id s r (mapCall (s.lookup id) (.insert 2 2)).1 := by
  have hw : ∀ c ∈ insertGetRemove, c.WellKeyed id := by
    simp [insertGetRemove, KeySpace.Call.WellKeyed]
  have hrun : (KeySpace.new exactAlloc []).run id exactAlloc insertGetRemove =
      some ([none, some 1, some 1], ⟨⟨[], 16⟩, none, []⟩) := by decide
  obtain ⟨hu, hlk, hcall⟩ := keySpace_refines_map id exactAlloc [] hw hrun
  have h2 : (⟨⟨[], 16⟩, none, []⟩ : KeySpace Nat).call id exactAlloc (.insert 2 2) =
      some (none, ⟨⟨[2], 15⟩, none, []⟩) := by decide
  exact ⟨hw, _, _, hrun, hu, hlk, rfl, _, _, h2, hcall _ _ _ rfl h2⟩

end Map

end Engula.Engine
