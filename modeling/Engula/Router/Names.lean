import Engula.Router.Watch

/-! The name tables. Every entry `name → id` of `db_name_lookup` should point at a database of
that name, and every entry `(db, name) → id` of `co_name_lookup` at a collection of that
database and name. The collection handler removes the old `(db, name)` entry on a rename, but
the database handler removes the new name, which it inserts right after, so a renamed database
keeps its old name entry. The collection handler removes the old entry under the database of
the new descriptor: along every run whose descriptors never move a collection to another
database, every collection name entry stays sound, whatever the order of renames, reuses of a
name and deletes. -/

namespace Engula.Router

/-- Every name entry points at a descriptor of that name. -/
def NamesConsistent (σ : State) : Prop :=
  (∀ name id, σ.dbNameLookup name = some id → ∃ d, σ.dbIdLookup id = some d ∧ d.name = name) ∧
    (∀ db name id, σ.coNameLookup (db, name) = some id →
      ∃ c, σ.coIdLookup id = some c ∧ c.db = db ∧ c.name = name)

/-- Database 1 is created as `a` and renamed to `b`. -/
def databaseRename : List Event :=
  [.update (.database ⟨1, "a"⟩), .update (.database ⟨1, "b"⟩)]

/-- After the rename, `a` still maps to database 1, whose name is `b`. -/
theorem databaseRename_keeps_old_name :
    (State.default.runEvents databaseRename).map (fun σ => (σ.dbNameLookup "a", σ.dbIdLookup 1)) =
      some (some 1, some ⟨1, "b"⟩) := by
  decide

theorem databaseRename_not_namesConsistent :
    ∃ σ, State.default.runEvents databaseRename = some σ ∧ ¬ NamesConsistent σ := by
  obtain ⟨σ, hrun, hσ⟩ := Option.map_eq_some'.1 databaseRename_keeps_old_name
  simp only [Prod.mk.injEq] at hσ
  refine ⟨σ, hrun, fun h => ?_⟩
  obtain ⟨d, hd, hname⟩ := h.1 "a" 1 hσ.1
  rw [hσ.2, Option.some.injEq] at hd
  subst hd
  exact absurd hname (by decide)

/-! ### Collection names along a run -/

/-- The collection half of `NamesConsistent`. -/
def CoNamesSound (σ : State) : Prop :=
  ∀ db name id, σ.coNameLookup (db, name) = some id →
    ∃ c, σ.coIdLookup id = some c ∧ c.db = db ∧ c.name = name

/-- No two collection descriptors of the events give one collection two databases. -/
def CollectionDbFixed (evs : List Event) : Prop :=
  ∀ c₁ c₂, Event.update (.collection c₁) ∈ evs → Event.update (.collection c₂) ∈ evs →
    c₁.id = c₂.id → c₁.db = c₂.db

/-- The run invariant: sound names, and stored collections under their ids from applied events. -/
structure CoNamesInv (evs : List Event) (σ : State) : Prop where
  sound : CoNamesSound σ
  stored : ∀ id c, σ.coIdLookup id = some c → c.id = id ∧ Event.update (.collection c) ∈ evs

theorem step_coLookups {σ σ' : State} {e : Event} (h : σ.step e = some σ')
    (hu : ∀ c, e ≠ .update (.collection c)) (hd : ∀ id, e ≠ .delete (.collection id)) :
    σ'.coIdLookup = σ.coIdLookup ∧ σ'.coNameLookup = σ.coNameLookup := by
  cases e with
  | update e =>
    cases h
    cases e with
    | group d => simp [State.applyUpdateEvent]
    | groupState gs =>
      simp only [State.applyUpdateEvent]
      split <;> exact ⟨rfl, rfl⟩
    | collection c => exact absurd rfl (hu c)
    | _ => exact ⟨rfl, rfl⟩
  | delete e =>
    simp only [State.step] at h
    cases e with
    | group _ => cases h
    | groupState _ => cases h
    | collection id => exact absurd rfl (hd id)
    | node _ =>
      cases h
      exact ⟨rfl, rfl⟩
    | database _ =>
      simp only [State.applyDeleteEvent] at h
      split at h <;> cases h <;> exact ⟨rfl, rfl⟩

theorem CoNamesSound.applyCollection {σ : State} (hs : CoNamesSound σ) (desc : CollectionDesc)
    (hdb : ∀ c, σ.coIdLookup desc.id = some c → c.db = desc.db) :
    CoNamesSound (σ.applyUpdateEvent (.collection desc)) := by
  intro db name id h
  dsimp only [State.applyUpdateEvent] at h ⊢
  by_cases hkey : (db, name) = (desc.db, desc.name)
  · rw [hkey, Function.update_same, Option.some.injEq] at h
    obtain ⟨rfl, rfl⟩ := Prod.mk.inj hkey
    subst h
    exact ⟨desc, Function.update_same _ _ _, rfl, rfl⟩
  rw [Function.update_noteq hkey] at h
  -- the entry was there before and survived the removal of the old name
  have hold : σ.coNameLookup (db, name) = some id ∧ ∀ old, σ.coIdLookup desc.id = some old →
      old.name ≠ desc.name → (db, name) ≠ (desc.db, old.name) := by
    rcases hco : σ.coIdLookup desc.id with _ | old <;> simp only [hco] at h
    · exact ⟨h, nofun⟩
    split_ifs at h with hname
    · rw [Function.update_apply] at h
      split_ifs at h with hk
      exact ⟨h, fun o ho _ => by simp only [hco, Option.some.injEq] at ho; subst ho; exact hk⟩
    · exact ⟨h, fun o ho hne => by
        simp only [hco, Option.some.injEq] at ho; subst ho; exact absurd (not_not.1 hname) hne⟩
  obtain ⟨c, hc, rfl, rfl⟩ := hs _ _ _ hold.1
  refine ⟨c, ?_, rfl, rfl⟩
  rw [Function.update_noteq]
  · exact hc
  rintro rfl
  have hcdb := hdb c hc
  by_cases hname : c.name = desc.name
  · exact hkey (by rw [hcdb, hname])
  · exact hold.2 c hc hname (by rw [hcdb])

theorem CoNamesSound.applyDelete {σ σ' : State} (hs : CoNamesSound σ) {id : Nat}
    (h : σ.applyDeleteEvent (.collection id) = some σ') : CoNamesSound σ' := by
  simp only [State.applyDeleteEvent] at h
  split at h
  · rename_i desc hdesc
    cases h
    intro db name id' h'
    dsimp only at h' ⊢
    by_cases hkey : (db, name) = (desc.db, desc.name)
    · rw [hkey, Function.update_same] at h'
      cases h'
    rw [Function.update_noteq hkey] at h'
    obtain ⟨c, hc, rfl, rfl⟩ := hs _ _ _ h'
    refine ⟨c, ?_, rfl, rfl⟩
    rw [Function.update_noteq]
    · exact hc
    rintro rfl
    rw [hdesc, Option.some.injEq] at hc
    exact hkey (by rw [hc])
  · cases h
    exact hs

/-- One event keeps the invariant unless it gives a collection a second database. -/
theorem CoNamesInv.step {evs : List Event} {σ σ' : State} {e : Event} (hinv : CoNamesInv evs σ)
    (h : σ.step e = some σ') (hdb : CollectionDbFixed (evs ++ [e])) :
    CoNamesInv (evs ++ [e]) σ' := by
  have hmono : ∀ id c, σ.coIdLookup id = some c →
      c.id = id ∧ Event.update (.collection c) ∈ evs ++ [e] :=
    fun id c hc => (hinv.stored id c hc).imp_right (List.mem_append_left _)
  by_cases hu : ∃ c, e = .update (.collection c)
  · obtain ⟨desc, rfl⟩ := hu
    cases h
    have hnew : Event.update (.collection desc) ∈ evs ++ [.update (.collection desc)] :=
      List.mem_append_right _ (List.mem_singleton_self _)
    refine ⟨hinv.sound.applyCollection desc fun c hc => ?_, fun id c hc => ?_⟩
    · obtain ⟨hid, hmem⟩ := hinv.stored _ c hc
      exact hdb c desc (List.mem_append_left _ hmem) hnew hid
    · dsimp only [State.applyUpdateEvent] at hc
      rw [Function.update_apply] at hc
      split_ifs at hc with hid
      · cases hc
        exact ⟨hid.symm, hnew⟩
      · exact hmono id c hc
  by_cases hd : ∃ id, e = .delete (.collection id)
  · obtain ⟨id, rfl⟩ := hd
    refine ⟨hinv.sound.applyDelete h, fun id' c hc => hmono id' c ?_⟩
    simp only [State.step, State.applyDeleteEvent] at h
    split at h <;> cases h
    · dsimp only at hc
      rw [Function.update_apply] at hc
      split_ifs at hc
      exact hc
    · exact hc
  push_neg at hu hd
  obtain ⟨hid, hname⟩ := step_coLookups h hu hd
  refine ⟨fun db name id' h' => ?_, fun id c hc => hmono id c ?_⟩
  · rw [hid]
    exact hinv.sound db name id' (hname ▸ h')
  · rwa [← hid]

theorem CoNamesInv.run {σ σ' : State} {evs : List Event} :
    ∀ pre : List Event, CoNamesInv pre σ → σ.runEvents evs = some σ' →
      CollectionDbFixed (pre ++ evs) → CoNamesInv (pre ++ evs) σ' := by
  induction evs generalizing σ with
  | nil =>
    intro pre hinv h _
    cases h
    simpa using hinv
  | cons e evs ih =>
    intro pre hinv h hdb
    rw [State.runEvents_cons, Option.bind_eq_some] at h
    obtain ⟨σ₁, h₁, h⟩ := h
    have hdb' : CollectionDbFixed (pre ++ [e] ++ evs) := by simpa using hdb
    have hsub : ∀ x, x ∈ pre ++ [e] → x ∈ pre ++ [e] ++ evs := fun x hx => List.mem_append_left _ hx
    have h₁' := hinv.step h₁ fun c₁ c₂ m₁ m₂ => hdb' c₁ c₂ (hsub _ m₁) (hsub _ m₂)
    simpa using ih (pre ++ [e]) h₁' h hdb'

/-- Along every run that keeps collections in their databases, `co_name_lookup` is sound. -/
theorem coNameLookup_sound_of_run {evs : List Event} {σ : State}
    (h : State.default.runEvents evs = some σ) (hdb : CollectionDbFixed evs) : CoNamesSound σ :=
  (CoNamesInv.run [] ⟨fun _ _ _ h => (by cases h), fun _ _ h => (by cases h)⟩ h hdb).sound

/-- Collection 1 is created as `a` and renamed `b`, another takes `a`, and 1 is deleted. -/
def collectionRenames : List Event :=
  [.update (.collection ⟨1, "a", 7, none⟩), .update (.collection ⟨1, "b", 7, none⟩),
    .update (.collection ⟨2, "a", 7, none⟩), .delete (.collection 1)]

theorem coNameLookup_sound_of_run_collectionRenames :
    ∃ σ, State.default.runEvents collectionRenames = some σ ∧ CollectionDbFixed collectionRenames ∧
      CoNamesSound σ := by
  have hdb : CollectionDbFixed collectionRenames := by
    intro c₁ c₂ h₁ h₂ _
    simp only [collectionRenames, List.mem_cons, Event.update.injEq, UpdateEvent.collection.injEq,
      reduceCtorEq, List.not_mem_nil, or_false] at h₁ h₂
    rcases h₁ with rfl | rfl | rfl <;> rcases h₂ with rfl | rfl | rfl <;> rfl
  obtain ⟨σ, h⟩ : ∃ σ, State.default.runEvents collectionRenames = some σ := ⟨_, rfl⟩
  exact ⟨σ, h, hdb, coNameLookup_sound_of_run h hdb⟩

end Engula.Router
