import Engula.Engine.Refinement

/-! `KeySpace::random_objects`, `engine/src/key_space.rs`: up to `limit` objects, first from the
current table and then, when it falls short, from `next_space`. Each table is read by
`random_objects_from_space`, which takes the objects from a random hint to the end of the table
and then, when those fall short, from its start again.

`RawTable::iter_with_hint` is hashbrown's and not in the source. It is modelled from the
contract the code relies on: the objects from a start position, which the table and the hint
determine, to the end of the table, in iteration order, and with the hint `0` every object. The
two passes then never meet: the first ends at the end of the table and the second stops before
the start of the first. So for every table content, every limit and every hint the result holds
`min(limit, len)` objects, each taken from its own entry of the key space, and `limit -
objects.len()` never underflows. -/

namespace Engula.Engine

variable {α κ : Type} (key : α → κ) (start : RawTable α → Nat → Nat)

/-! ### The model -/

/-- `RawTable::iter_with_hint`: the objects from the start position of the hint onwards. -/
def RawTable.iterWithHint (t : RawTable α) (hint : Nat) : List α := t.entries.drop (start t hint)

/-- `random_objects_from_space`, with `index` the random hint. -/
def randomObjectsFromSpace (space : RawTable α) (limit index : Nat) : List α :=
  let limit := min space.len limit
  let objects := (space.iterWithHint start index).take limit
  if objects.length < limit then objects ++ (space.iterWithHint start 0).take (limit - objects.length)
  else objects

/-- `KeySpace::random_objects` with the hints of its two passes; `none` is the underflow. -/
def KeySpace.randomObjects (s : KeySpace α) (limit hint₁ hint₂ : Nat) : Option (List α) :=
  let objects := randomObjectsFromSpace start s.currentSpace limit hint₁
  if limit < objects.length then none
  else
    let left := limit - objects.length
    if 0 < left then
      match s.nextSpace with
      | some next => some (objects ++ randomObjectsFromSpace start next left hint₂)
      | none => some objects
    else some objects

/-! ### One table -/

section Space

variable {start} (hstart : ∀ t, start t 0 = 0)
include hstart

theorem randomObjectsFromSpace_eq (t : RawTable α) (limit index : Nat) :
    (randomObjectsFromSpace start t limit index).length = min t.len limit ∧
      (randomObjectsFromSpace start t limit index).Subperm t.entries := by
  simp only [randomObjectsFromSpace, RawTable.iterWithHint, RawTable.len, hstart, List.drop_zero]
  have hd : (t.entries.drop (start t index)).length = t.entries.length - start t index := List.length_drop _ _
  generalize hdd : t.entries.drop (start t index) = d at hd ⊢
  split_ifs with hshort
  · -- the first pass reaches the end of the table; the second stops before its start
    rw [List.length_take] at hshort
    rw [List.take_of_length_le (by omega)]
    have hk : min t.entries.length limit - d.length ≤ start t index := by omega
    refine ⟨by simp only [List.length_append, List.length_take]; omega, ?_⟩
    have hsub : (t.entries.take (min t.entries.length limit - d.length) ++ d).Sublist
        (t.entries.take (start t index) ++ d) :=
      (t.entries.take_sublist_take_left hk).append (List.Sublist.refl d)
    rw [← hdd, List.take_append_drop] at hsub
    rw [← hdd]
    exact List.perm_append_comm.subperm.trans hsub.subperm
  · refine ⟨by simp only [List.length_take] at hshort ⊢; omega, ?_⟩
    rw [← hdd]
    exact ((List.take_sublist _ _).trans (List.drop_sublist _ _)).subperm

end Space

/-! ### The key space -/

section KeySpace

variable {start} (hstart : ∀ t, start t 0 = 0)
include hstart

/-- `random_objects` never underflows and returns `min(limit, len)` distinct entries. -/
theorem randomObjects_spec (s : KeySpace α) (limit hint₁ hint₂ : Nat) :
    (randomObjectsFromSpace start s.currentSpace limit hint₁).length ≤ limit ∧
      ∃ objects, s.randomObjects start limit hint₁ hint₂ = some objects ∧
        objects.length = min limit s.objects.length ∧ objects.Subperm s.objects ∧
        (s.Unique key → (objects.map key).Nodup) := by
  obtain ⟨hlen₁, hsub₁⟩ := randomObjectsFromSpace_eq hstart s.currentSpace limit hint₁
  have hA : (randomObjectsFromSpace start s.currentSpace limit hint₁).length ≤ limit := by
    rw [hlen₁]
    exact Nat.min_le_right _ _
  suffices h : ∃ objects, s.randomObjects start limit hint₁ hint₂ = some objects ∧
      objects.length = min limit s.objects.length ∧ objects.Subperm s.objects by
    obtain ⟨objects, hr, hl, hsub⟩ := h
    refine ⟨hA, objects, hr, hl, hsub, fun hu => ?_⟩
    obtain ⟨l, hp, hl⟩ := hsub
    exact (hp.map key).nodup_iff.1 ((hl.map key).nodup hu)
  simp only [KeySpace.randomObjects, KeySpace.objects]
  generalize randomObjectsFromSpace start s.currentSpace limit hint₁ = A at hlen₁ hsub₁ hA ⊢
  rw [if_neg (Nat.not_lt.2 hA)]
  simp only [RawTable.len] at hlen₁
  rcases s.nextSpace with _ | next
  · -- no rehash: the current table alone
    refine ⟨A, by split_ifs <;> rfl, by simp [hlen₁, Nat.min_comm], by simpa using hsub₁⟩
  simp only [Option.map_some', Option.getD_some]
  obtain ⟨hlen₂, hsub₂⟩ := randomObjectsFromSpace_eq hstart next (limit - A.length) hint₂
  generalize randomObjectsFromSpace start next (limit - A.length) hint₂ = B at hlen₂ hsub₂ ⊢
  simp only [RawTable.len] at hlen₂
  split_ifs with hleft
  · refine ⟨_, rfl, by simp only [List.length_append]; omega, ?_⟩
    exact List.perm_append_comm.subperm.trans (((List.subperm_append_right _).2 hsub₂).trans
      ((List.subperm_append_left _).2 hsub₁))
  · exact ⟨A, rfl, by simp only [List.length_append]; omega, hsub₁.trans (List.sublist_append_right _ _).subperm⟩

end KeySpace

/-- During a rehash, with `1` and `2` in the current table and `3` in the next. -/
theorem randomObjects_spec_rehashing :
    (∀ t : RawTable Nat, 0 % (t.len + 1) = 0) ∧
      ∃ objects, (⟨⟨[1, 2], 0⟩, some ⟨[3], 5⟩, []⟩ : KeySpace Nat).randomObjects
          (fun t hint => hint % (t.len + 1)) 3 1 7 = some objects ∧
        objects.length = 3 ∧ (objects.map id).Nodup := by
  obtain ⟨-, objects, h, hl, -, hu⟩ := @randomObjects_spec Nat Nat id (fun t hint => hint % (t.len + 1))
    (fun t => Nat.zero_mod _) ⟨⟨[1, 2], 0⟩, some ⟨[3], 5⟩, []⟩ 3 1 7
  exact ⟨fun t => Nat.zero_mod _, objects, h, hl.trans rfl, hu (show ([3, 1, 2].map id).Nodup by decide)⟩

end Engula.Engine
