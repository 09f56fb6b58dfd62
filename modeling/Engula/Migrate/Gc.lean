import Engula.Bytes

/-! `remove_shard`, `node/migrate/gc.rs`: the versions of a migrated shard are deleted chunk by
chunk. `collect_chunks` reads a snapshot of the shard from a start key and pushes the versions
of whole keys until it holds `shard_gc_keys` of them or more; `remove_shard` hands each chunk to
`delete_chunks` and starts the next snapshot at the chunk's last key, until a chunk is empty.

`GroupEngine` and `Replica` are not in the source. The shard is modelled as its keys in
increasing order, each with its non-empty list of versions; `snapshot(shard, Start { k })` is
every key at or above `k` with its versions, in order, and `delete_chunks` removes exactly the
given `(key, version)` pairs. Under these contracts the `?` exits are never taken. The loop runs
on explicit fuel: since a chunk holds whole keys, every chunk removes at least one key and the
next snapshot starts above all of them, so one more iteration than there are keys suffices, and
the chunks are every version of the shard, each once, in order. Each chunk ends at the first key
whose versions bring it to `shard_gc_keys`, so every chunk but the last holds that many versions
or more, and none holds another key after reaching it. -/

namespace Engula.Migrate

abbrev KeyVersions := Bytes × List UInt64

/-- A shard as `GroupEngine` stores it: increasing keys, each with its non-empty versions. -/
structure ShardContent where
  entries : List KeyVersions
  sorted : (entries.map Prod.fst).Pairwise (· < ·)
  nonempty : ∀ e ∈ entries, e.2 ≠ []

/-- Every `(key, version)` of the entries, in order. -/
def pairsOf (entries : List KeyVersions) : List (Bytes × UInt64) :=
  entries.flatMap fun e => e.2.map (e.1, ·)

@[simp] theorem pairsOf_nil : pairsOf [] = [] := rfl

@[simp] theorem pairsOf_cons (e : KeyVersions) (entries : List KeyVersions) :
    pairsOf (e :: entries) = e.2.map (e.1, ·) ++ pairsOf entries := rfl

@[simp] theorem pairsOf_append (l₁ l₂ : List KeyVersions) : pairsOf (l₁ ++ l₂) = pairsOf l₁ ++ pairsOf l₂ := by
  simp [pairsOf]

/-! ### The model -/

namespace ShardContent

/-- `GroupEngine::snapshot` from `start_key`: every key at or above it, in order. -/
def snapshot (s : ShardContent) (startKey : Option Bytes) : List KeyVersions :=
  s.entries.filter fun e => startKey.all (· ≤ e.1)

def removePairs (entries : List KeyVersions) (chunk : List (Bytes × UInt64)) : List KeyVersions :=
  (entries.map fun e => (e.1, e.2.filter fun v => (e.1, v) ∉ chunk)).filter (·.2 ≠ [])

def deleteChunks (s : ShardContent) (chunk : List (Bytes × UInt64)) : ShardContent where
  entries := removePairs s.entries chunk
  sorted := by
    refine s.sorted.sublist ?_
    have : (s.entries.map fun e => (e.1, e.2.filter fun v => (e.1, v) ∉ chunk)).map Prod.fst =
        s.entries.map Prod.fst := by simp
    exact this ▸ (List.filter_sublist _).map Prod.fst
  nonempty e he := by simpa using (List.mem_filter.1 he).2

end ShardContent

/-- The loop of `collect_chunks`: whole keys until the buffer holds `shard_gc_keys` or more. -/
def collectLoop (shardGcKeys : Nat) : List KeyVersions → List (Bytes × UInt64) → List (Bytes × UInt64)
  | [], buf => buf
  | e :: rest, buf =>
    let buf := buf ++ e.2.map (e.1, ·)
    if buf.length ≥ shardGcKeys then buf else collectLoop shardGcKeys rest buf

def collectChunks (shardGcKeys : Nat) (s : ShardContent) (startKey : Option Bytes) : List (Bytes × UInt64) :=
  collectLoop shardGcKeys (s.snapshot startKey) []

/-- The loop of `remove_shard` on `fuel` iterations; `none` is the fuel running out. -/
def removeShardLoop (shardGcKeys : Nat) :
    Nat → ShardContent → Option Bytes → Option (ShardContent × List (List (Bytes × UInt64)))
  | 0, _, _ => none
  | fuel + 1, s, latestKey =>
    let chunk := collectChunks shardGcKeys s latestKey
    if chunk.isEmpty then some (s, [])
    else
      match removeShardLoop shardGcKeys fuel (s.deleteChunks chunk) (chunk.getLast?.map (·.1)) with
      | some (s', chunks) => some (s', chunk :: chunks)
      | none => none

def removeShard (shardGcKeys fuel : Nat) (s : ShardContent) : Option (ShardContent × List (List (Bytes × UInt64))) :=
  removeShardLoop shardGcKeys fuel s none

/-! ### One chunk -/

theorem mem_pairsOf {entries : List KeyVersions} {k : Bytes} {v : UInt64} :
    (k, v) ∈ pairsOf entries ↔ ∃ e ∈ entries, e.1 = k ∧ v ∈ e.2 := by
  simp only [pairsOf, List.mem_flatMap, List.mem_map, Prod.mk.injEq]
  exact ⟨fun ⟨e, he, v', hv', hk, hv⟩ => ⟨e, he, hk, hv ▸ hv'⟩, fun ⟨e, he, hk, hv⟩ => ⟨e, he, v, hv, hk, rfl⟩⟩

theorem pairsOf_ne_nil {entries : List KeyVersions} (h : entries ≠ []) (hne : ∀ e ∈ entries, e.2 ≠ []) :
    pairsOf entries ≠ [] := by
  obtain ⟨e, rest, rfl⟩ := List.exists_cons_of_ne_nil h
  intro h'
  rw [pairsOf_cons, List.append_eq_nil] at h'
  exact hne e (.head _) (by simpa using h'.1)

theorem collectLoop_take (shardGcKeys : Nat) (entries : List KeyVersions) (buf : List (Bytes × UInt64)) :
    ∃ n, collectLoop shardGcKeys entries buf = buf ++ pairsOf (entries.take n) ∧ (entries ≠ [] → 0 < n) ∧
      n ≤ entries.length ∧
      (∀ j, 0 < j → j < n → (buf ++ pairsOf (entries.take j)).length < shardGcKeys) ∧
      (n < entries.length → shardGcKeys ≤ (buf ++ pairsOf (entries.take n)).length) := by
  induction entries generalizing buf with
  | nil => exact ⟨0, by simp [collectLoop], fun h => absurd rfl h, le_rfl, by omega, by simp⟩
  | cons e rest ih =>
    simp only [collectLoop]
    split_ifs with hfull
    · exact ⟨1, by simp, fun _ => Nat.one_pos, by simp, by omega, fun _ => by simpa using hfull⟩
    obtain ⟨n, hn, -, hle, hmin, hstop⟩ := ih (buf ++ e.2.map (e.1, ·))
    refine ⟨n + 1, by simp [hn], fun _ => Nat.succ_pos n, by simpa using hle, fun j hj hjn => ?_,
      fun h => by simpa using hstop (by simpa using h)⟩
    obtain ⟨j, rfl⟩ := Nat.exists_eq_succ_of_ne_zero (Nat.pos_iff_ne_zero.1 hj)
    rcases Nat.eq_zero_or_pos j with rfl | hj
    · simpa using Nat.lt_of_not_le hfull
    · simpa using hmin j hj (by omega)

theorem removePairs_append {A B : List KeyVersions} (hlt : ∀ a ∈ A, ∀ b ∈ B, a.1 < b.1)
    (hB : ∀ e ∈ B, e.2 ≠ []) : ShardContent.removePairs (A ++ B) (pairsOf A) = B := by
  have hA : (A.map fun e => (e.1, e.2.filter fun v => (e.1, v) ∉ pairsOf A)).filter (·.2 ≠ []) = [] := by
    refine List.filter_eq_nil_iff.2 fun x hx => ?_
    obtain ⟨a, ha, rfl⟩ := List.mem_map.1 hx
    have hgone : (a.2.filter fun v => (a.1, v) ∉ pairsOf A) = [] :=
      List.filter_eq_nil_iff.2 fun v hv => by
        rw [decide_eq_true_eq, not_not]
        exact mem_pairsOf.2 ⟨a, ha, rfl, hv⟩
    simp only [hgone, ne_eq, not_true_eq_false, decide_False, Bool.false_eq_true, not_false_eq_true]
  have hkeep : (B.map fun e => (e.1, e.2.filter fun v => (e.1, v) ∉ pairsOf A)) = B := by
    refine (List.map_congr_left fun b hb => ?_).trans (List.map_id _)
    refine Prod.ext rfl (List.filter_eq_self.2 fun v _ => ?_)
    rw [decide_eq_true_eq]
    intro hmem
    obtain ⟨a, ha, hab, -⟩ := mem_pairsOf.1 hmem
    exact (hlt a ha b hb).ne hab
  rw [ShardContent.removePairs, List.map_append, List.filter_append, hA, hkeep, List.nil_append]
  exact List.filter_eq_self.2 fun e he => by simpa using hB e he

/-- Every stored key lies above where the next snapshot starts. -/
def Above (latestKey : Option Bytes) (s : ShardContent) : Prop :=
  ∀ e ∈ s.entries, ∀ k ∈ latestKey, k < e.1

theorem snapshot_of_above {latestKey : Option Bytes} {s : ShardContent} (h : Above latestKey s) :
    s.snapshot latestKey = s.entries :=
  List.filter_eq_self.2 fun e he => by
    rcases latestKey with _ | k
    · rfl
    · simpa using le_of_lt (h e he k rfl)

theorem key_lt_of_take_drop (s : ShardContent) (n : Nat) :
    ∀ a ∈ s.entries.take n, ∀ b ∈ s.entries.drop n, a.1 < b.1 := by
  have h := s.sorted
  rw [← List.take_append_drop n s.entries, List.map_append, List.pairwise_append] at h
  exact fun a ha b hb => h.2.2 _ (List.mem_map_of_mem _ ha) _ (List.mem_map_of_mem _ hb)

theorem removePairs_take (s : ShardContent) (n : Nat) :
    ShardContent.removePairs s.entries (pairsOf (s.entries.take n)) = s.entries.drop n := by
  have h := removePairs_append (key_lt_of_take_drop s n)
    fun e he => s.nonempty e (List.mem_of_mem_drop he)
  rwa [List.take_append_drop] at h

/-! ### The loop -/

theorem removeShardLoop_succ {shardGcKeys fuel : Nat} {s : ShardContent} {latestKey : Option Bytes}
    {r : ShardContent × List (List (Bytes × UInt64))}
    (h : removeShardLoop shardGcKeys fuel s latestKey = some r) :
    removeShardLoop shardGcKeys (fuel + 1) s latestKey = some r := by
  induction fuel generalizing s latestKey r with
  | zero => cases h
  | succ fuel ih =>
    rw [removeShardLoop] at h ⊢
    split_ifs at h ⊢
    · exact h
    · split at h
      · rw [ih ‹_›]
        exact h
      · cases h

theorem removeShardLoop_mono {shardGcKeys fuel fuel' : Nat} {s : ShardContent} {latestKey : Option Bytes}
    {r : ShardContent × List (List (Bytes × UInt64))}
    (h : removeShardLoop shardGcKeys fuel s latestKey = some r) (hle : fuel ≤ fuel') :
    removeShardLoop shardGcKeys fuel' s latestKey = some r := by
  induction hle with
  | refl => exact h
  | step _ ih => exact removeShardLoop_succ ih

/-- `n` is where `collect_chunks` cuts: one key at least, and the first reaching `shard_gc_keys`. -/
def GreedyCut (shardGcKeys : Nat) (entries : List KeyVersions) (n : Nat) : Prop :=
  0 < n ∧ n ≤ entries.length ∧
    (∀ j, 0 < j → j < n → (pairsOf (entries.take j)).length < shardGcKeys) ∧
    (n < entries.length → shardGcKeys ≤ (pairsOf (entries.take n)).length)

theorem collectChunks_of_entries_eq_nil (shardGcKeys : Nat) {s : ShardContent} {latestKey : Option Bytes}
    (habove : Above latestKey s) (hE : s.entries = []) : collectChunks shardGcKeys s latestKey = [] := by
  simp [collectChunks, snapshot_of_above habove, hE, collectLoop]

/-- One iteration deletes the first `n ≥ 1` keys, cut where `GreedyCut` says. -/
theorem collectChunks_step (shardGcKeys : Nat) {s : ShardContent} {latestKey : Option Bytes}
    (habove : Above latestKey s) (hE : s.entries ≠ []) :
    ∃ n k, GreedyCut shardGcKeys s.entries n ∧ collectChunks shardGcKeys s latestKey = pairsOf (s.entries.take n) ∧
      (pairsOf (s.entries.take n)).getLast?.map (·.1) = some k ∧
      (s.deleteChunks (pairsOf (s.entries.take n))).entries = s.entries.drop n ∧
      Above (some k) (s.deleteChunks (pairsOf (s.entries.take n))) := by
  obtain ⟨n, hchunk, hn, hle, hmin, hstop⟩ := collectLoop_take shardGcKeys s.entries []
  have hpos := hn hE
  have hne : pairsOf (s.entries.take n) ≠ [] :=
    pairsOf_ne_nil (by simpa [hE] using Nat.pos_iff_ne_zero.1 hpos)
      fun e he => s.nonempty e (List.mem_of_mem_take he)
  obtain ⟨p, hp⟩ := Option.ne_none_iff_exists'.1 (mt List.getLast?_eq_none_iff.1 hne)
  obtain ⟨a, ha, hka, -⟩ := mem_pairsOf.1 (List.mem_of_getLast?_eq_some hp)
  have hdel := removePairs_take s n
  refine ⟨n, p.1, ⟨hpos, hle, by simpa using hmin, by simpa using hstop⟩,
    by simpa [collectChunks, snapshot_of_above habove] using hchunk,
    by rw [hp]; rfl, hdel, ?_⟩
  intro b hb k hk
  rw [Option.mem_def, Option.some.injEq] at hk
  exact hk ▸ hka ▸ key_lt_of_take_drop s n a ha b (hdel ▸ hb)

/-- From a start key below every key, enough fuel deletes the shard chunk by chunk. -/
theorem removeShardLoop_spec (shardGcKeys : Nat) :
    ∀ (fuel : Nat) (s : ShardContent) (latestKey : Option Bytes), Above latestKey s →
      s.entries.length < fuel → ∃ s' chunks, removeShardLoop shardGcKeys fuel s latestKey = some (s', chunks) ∧
        s'.entries = [] ∧ chunks.flatten = pairsOf s.entries
  | 0, _, _, _, hlt => absurd hlt (Nat.not_lt_zero _)
  | fuel + 1, s, latestKey, habove, hlt => by
    by_cases hE : s.entries = []
    · -- an empty shard gives an empty first chunk
      exact ⟨s, [], by simp [removeShardLoop, collectChunks_of_entries_eq_nil shardGcKeys habove hE], hE,
        by simp [hE]⟩
    obtain ⟨n, k, ⟨hpos, -⟩, hc, hk, hdel, habove'⟩ := collectChunks_step shardGcKeys habove hE
    have hlen : 0 < s.entries.length := List.length_pos.2 hE
    obtain ⟨s', chunks, hrun, hempty, hflat⟩ := removeShardLoop_spec shardGcKeys fuel _ _ habove'
      (by rw [hdel, List.length_drop]; omega)
    have hne : pairsOf (s.entries.take n) ≠ [] := fun h => by simp [h] at hk
    refine ⟨s', pairsOf (s.entries.take n) :: chunks, ?_, hempty, ?_⟩
    · simp only [removeShardLoop, hc, List.isEmpty_iff, hne, if_false, hk, hrun]
    · rw [List.flatten_cons, hflat, hdel, ← pairsOf_append, List.take_append_drop]

/-- `remove_shard` hands every `(key, version)` over once, in order, and empties the shard. -/
theorem removeShard_deletes_every_version (shardGcKeys : Nat) (s : ShardContent) :
    ∃ s' chunks, (∀ fuel, s.entries.length < fuel → removeShard shardGcKeys fuel s = some (s', chunks)) ∧
      chunks.flatten = pairsOf s.entries ∧ s'.entries = [] := by
  obtain ⟨s', chunks, h, hempty, hflat⟩ := removeShardLoop_spec shardGcKeys (s.entries.length + 1) s none
    (fun _ _ _ h => nomatch h) (Nat.lt_succ_self _)
  exact ⟨s', chunks, fun _ hfuel => removeShardLoop_mono h hfuel, hflat, hempty⟩

example : (removeShard 1 3 ⟨[([1], [2, 1]), ([2], [5])], by decide, by decide⟩).map (fun r => (r.1.entries, r.2)) =
    some ([], [[([1], 2), ([1], 1)], [([2], 5)]]) := by decide

/-! ### Chunk sizes -/

/-- `chunks` cut the entries, in order, where `collect_chunks` cuts them. -/
def GreedyChunks (shardGcKeys : Nat) : List KeyVersions → List (List (Bytes × UInt64)) → Prop
  | [], [] => True
  | entries, c :: cs => ∃ n, GreedyCut shardGcKeys entries n ∧ c = pairsOf (entries.take n) ∧
      GreedyChunks shardGcKeys (entries.drop n) cs
  | _ :: _, [] => False

theorem greedyChunks_cons {shardGcKeys : Nat} {entries : List KeyVersions} {c : List (Bytes × UInt64)}
    {cs : List (List (Bytes × UInt64))} :
    GreedyChunks shardGcKeys entries (c :: cs) ↔ ∃ n, GreedyCut shardGcKeys entries n ∧
      c = pairsOf (entries.take n) ∧ GreedyChunks shardGcKeys (entries.drop n) cs := by
  cases entries <;> rfl

theorem GreedyChunks.le_length {shardGcKeys : Nat} :
    ∀ {entries : List KeyVersions} {chunks : List (List (Bytes × UInt64))},
      GreedyChunks shardGcKeys entries chunks → ∀ c ∈ chunks.dropLast, shardGcKeys ≤ c.length
  | _, [], _ => by simp
  | _, [_], _ => by simp
  | _, _ :: _ :: _, h => by
    obtain ⟨n, ⟨_, _, _, hstop⟩, rfl, hrest⟩ := greedyChunks_cons.1 h
    rw [List.dropLast_cons₂, List.forall_mem_cons]
    refine ⟨hstop ?_, hrest.le_length⟩
    obtain ⟨m, ⟨hm, hmle, -⟩, -⟩ := greedyChunks_cons.1 hrest
    rw [List.length_drop] at hmle
    omega

theorem removeShardLoop_greedy (shardGcKeys : Nat) :
    ∀ (fuel : Nat) (s : ShardContent) (latestKey : Option Bytes)
      (r : ShardContent × List (List (Bytes × UInt64))), Above latestKey s →
      removeShardLoop shardGcKeys fuel s latestKey = some r → GreedyChunks shardGcKeys s.entries r.2
  | 0, _, _, _, _, h => by cases h
  | fuel + 1, s, latestKey, r, habove, h => by
    by_cases hE : s.entries = []
    · simp only [removeShardLoop, collectChunks_of_entries_eq_nil shardGcKeys habove hE, List.isEmpty_nil,
        if_true, Option.some.injEq] at h
      subst h
      simp [hE, GreedyChunks]
    obtain ⟨n, k, hcut, hc, hk, hdel, habove'⟩ := collectChunks_step shardGcKeys habove hE
    have hne : pairsOf (s.entries.take n) ≠ [] := fun h => by simp [h] at hk
    simp only [removeShardLoop, hc, List.isEmpty_iff, hne, if_false, hk] at h
    split at h
    · rename_i s' chunks hrun
      cases h
      exact greedyChunks_cons.2 ⟨n, hcut, rfl, hdel ▸ removeShardLoop_greedy shardGcKeys fuel _ _ _ habove' hrun⟩
    · cases h

/-- `remove_shard` cuts the shard's keys where `collect_chunks` does, chunk after chunk. -/
theorem removeShard_chunks_greedy (shardGcKeys : Nat) (s : ShardContent) :
    ∃ s' chunks, (∀ fuel, s.entries.length < fuel → removeShard shardGcKeys fuel s = some (s', chunks)) ∧
      GreedyChunks shardGcKeys s.entries chunks ∧ ∀ c ∈ chunks.dropLast, shardGcKeys ≤ c.length := by
  have habove : Above none s := fun _ _ _ h => nomatch h
  obtain ⟨s', chunks, h, -, -⟩ := removeShardLoop_spec shardGcKeys (s.entries.length + 1) s none habove
    (Nat.lt_succ_self _)
  have hg := removeShardLoop_greedy shardGcKeys _ s none _ habove h
  exact ⟨s', chunks, fun _ hfuel => removeShardLoop_mono h hfuel, hg, hg.le_length⟩

end Engula.Migrate
