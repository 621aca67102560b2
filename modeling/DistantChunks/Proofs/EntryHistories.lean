import DistantChunks.Proofs.Expiry
import DistantChunks.Proofs.FiniteDifference

/-!
# What a cache knows of its history

A cache remembers one time for each chunk. It sums up what has happened to the chunk since it was
put in: it is the time of the last update that found the chunk held or, if none did, the clock when
the chunk was put in. By this time an update decides which of the chunks that nobody holds go.
Apart from updates a chunk goes only when the cache is cleared or another is put in under its key.
-/

namespace DistantChunks.ChunkCache

namespace Operation

def time? : Operation → Option Float
  | .update now _ => some now
  | _ => none

def timeHeld? (serial : Nat) : Operation → Option Float
  | .update now held => if held serial then some now else none
  | _ => none

def isFinite : Operation → Bool
  | .update now _ => now.isFinite
  | .setExpiryDelay seconds => seconds.isFinite
  | _ => true

/-- The operations that can take away the chunk under a key. -/
def CanTake (key : ChunkKey) : Operation → Prop
  | .insert chunk => chunk.value.id.key = key
  | .update _ _ | .clear => True
  | .get _ | .setExpiryDelay _ => False

end Operation

/-- The clock after a run, which is zero before the first update. -/
def clock (ops : List Operation) : Float := (ops.filterMap Operation.time?).getLastD 0

/-- When a chunk was last used that was put in between two parts of a run. -/
def lastUse (before : List Operation) (serial : Nat) (after : List Operation) : Float :=
  (after.filterMap (·.timeHeld? serial)).getLastD (clock before)

/-- A run puts a chunk in between two of its parts, and in the later one no other under its key. -/
structure PutsLast (before : List Operation) (chunk : Shared Chunk) (after ops : List Operation) :
    Prop where
  ops_eq : ops = before ++ .insert chunk :: after
  last : ∀ other, .insert other ∈ after → other.value.id.key ≠ chunk.value.id.key

/-- The cache holds what its history says. -/
structure FollowsHistory (delay : Float) (ops : List Operation) (c : ChunkCache) : Prop where
  /-- What is found under an id was put in last under its key. -/
  found : ∀ id chunk, c.get? id = some chunk →
    chunk.value.id.key = id.key ∧ ∃ before after, PutsLast before chunk after ops
  /-- What was put in last is there unless something after it can have taken it. -/
  stays : ∀ before chunk after, PutsLast before chunk after ops →
    c.get? chunk.value.id = some chunk ∨ ∃ op ∈ after, op.CanTake chunk.value.id.key
  /-- The next operation leaves a chunk in place unless it is one that can take it. -/
  leaves : ∀ id chunk op, c.get? id = some chunk →
    (c.apply op).get? id = some chunk ∨ op.CanTake id.key
  /-- An update takes a chunk that nobody holds if its last use lies a whole delay back. -/
  evicted : ∀ id chunk, c.get? id = some chunk → ∀ before after, PutsLast before chunk after ops →
    ∀ now held, now.isFinite = true → held chunk.serial = false →
    ((c.update now held).2.get? id = none ↔
      lastUse before chunk.serial after ≤ now - ops.foldl Operation.delaying delay)

theorem getLastD_filterMap_concat {α β : Type} (f : α → Option β) (xs : List α) (x : α) (b : β) :
    ((xs ++ [x]).filterMap f).getLastD b = (f x).getD ((xs.filterMap f).getLastD b) := by
  rw [List.filterMap_append]
  cases h : f x with
  | none => simp [h]
  | some y => simp [h]

theorem clock_concat (ops : List Operation) (op : Operation) :
    clock (ops ++ [op]) = op.time?.getD (clock ops) :=
  getLastD_filterMap_concat _ ops op 0

theorem lastUse_concat (before : List Operation) (serial : Nat) (after : List Operation)
    (op : Operation) : lastUse before serial (after ++ [op]) =
      (op.timeHeld? serial).getD (lastUse before serial after) :=
  getLastD_filterMap_concat _ after op _

namespace PutsLast

variable {before after ops : List Operation} {chunk : Shared Chunk}

theorem insert (ops : List Operation) (chunk : Shared Chunk) :
    PutsLast ops chunk [] (ops ++ [.insert chunk]) :=
  ⟨rfl, nofun⟩

theorem concat (h : PutsLast before chunk after ops) {op : Operation}
    (hop : ∀ other, op = .insert other → other.value.id.key ≠ chunk.value.id.key) :
    PutsLast before chunk (after ++ [op]) (ops ++ [op]) where
  ops_eq := by rw [h.ops_eq, List.append_assoc, List.cons_append]
  last other hother := by
    rcases List.mem_append.1 hother with hother | hother
    · exact h.last other hother
    · exact hop other (List.mem_singleton.1 hother).symm

section Unique

variable {before' after' : List Operation} {chunk' : Shared Chunk}

theorem eq_of_before_eq_append (h : PutsLast before chunk after ops)
    (h' : PutsLast before' chunk' after' ops) (hkey : chunk.value.id.key = chunk'.value.id.key)
    {between : List Operation} (hbefore : before' = before ++ between) :
    before = before' ∧ chunk = chunk' ∧ after = after' := by
  have hafter : .insert chunk :: after = between ++ .insert chunk' :: after' := by
    have heq := h.ops_eq.symm.trans h'.ops_eq
    rw [hbefore, List.append_assoc] at heq
    exact List.append_cancel_left heq
  cases between with
  | nil =>
    obtain ⟨hop, rfl⟩ := List.cons.inj hafter
    exact ⟨by rw [hbefore, List.append_nil], Operation.insert.inj hop, rfl⟩
  | cons op between =>
    obtain ⟨-, rfl⟩ := List.cons.inj hafter
    exact absurd hkey.symm (h.last chunk' (by simp))

theorem unique (h : PutsLast before chunk after ops) (h' : PutsLast before' chunk' after' ops)
    (hkey : chunk.value.id.key = chunk'.value.id.key) :
    before = before' ∧ chunk = chunk' ∧ after = after' := by
  have heq := h.ops_eq.symm.trans h'.ops_eq
  rcases List.append_eq_append_iff.1 heq with ⟨between, hbefore, -⟩ | ⟨between, hbefore, -⟩
  · exact h.eq_of_before_eq_append h' hkey hbefore
  · obtain ⟨hbefore', hchunk, hafter⟩ := h'.eq_of_before_eq_append h hkey.symm hbefore
    exact ⟨hbefore'.symm, hchunk.symm, hafter.symm⟩

end Unique

end PutsLast

def IsEntryOf (ops : List Operation) (key : ChunkKey) (e : CacheEntry) : Prop :=
  e.chunk.value.id.key = key ∧ ∃ before after, PutsLast before e.chunk after ops ∧
    e.lastUsed = lastUse before e.chunk.serial after

structure Remembers (ops : List Operation) (c : ChunkCache) : Prop where
  now : c.now = clock ops
  entries : ∀ (key : ChunkKey) (e : CacheEntry), c.entries[key]? = some e → IsEntryOf ops key e

theorem IsEntryOf.concat {ops : List Operation} {key : ChunkKey} {e : CacheEntry}
    (h : IsEntryOf ops key e) {op : Operation}
    (hop : ∀ other, op = .insert other → other.value.id.key ≠ key) :
    IsEntryOf (ops ++ [op]) key
      { e with lastUsed := (op.timeHeld? e.chunk.serial).getD e.lastUsed } := by
  obtain ⟨rfl, before, after, hputs, huse⟩ := h
  refine ⟨rfl, before, after ++ [op], hputs.concat hop, ?_⟩
  rw [lastUse_concat, ← huse]

theorem eq_of_refresh? {held : Nat → Bool} {now delay : Float} {e e' : CacheEntry}
    (h : refresh? held now delay e = some e') :
    e' = { e with
      lastUsed := ((Operation.update now held).timeHeld? e.chunk.serial).getD e.lastUsed } := by
  by_cases hheld : held e.chunk.serial = true <;> simp [refresh?, hheld] at h <;>
    obtain ⟨-, rfl⟩ := h <;> simp [Operation.timeHeld?, hheld]

theorem Remembers.apply {ops : List Operation} {c : ChunkCache} (h : Remembers ops c)
    (op : Operation) : Remembers (ops ++ [op]) (c.apply op) where
  now := by
    rw [clock_concat, ← h.now]
    cases op <;> rfl
  entries key e he := by
    cases op with
    | insert chunk =>
      rw [ChunkCache.apply, getElem?_insert] at he
      by_cases hkey : chunk.value.id.key = key
      · rw [if_pos hkey] at he
        cases he
        exact ⟨hkey, ops, [], .insert ops chunk, h.now⟩
      · rw [if_neg hkey] at he
        refine (h.entries key e he).concat ?_
        rintro other hother rfl
        cases hother
        exact hkey rfl
    | update now held =>
      obtain ⟨old, hold, hrefresh⟩ := exists_of_getElem?_update he
      rw [eq_of_refresh? hrefresh]
      exact (h.entries key old hold).concat (by simp)
    | get | setExpiryDelay => exact (h.entries key e he).concat (by simp)
    | clear => simp [ChunkCache.apply, clear] at he

theorem remembers_run (delay : Float) (ops : List Operation) :
    Remembers ops ((new delay).run ops) := by
  induction ops using List.reverseRecOn with
  | nil =>
    refine ⟨rfl, fun key e he => ?_⟩
    simp [run, new] at he
  | append_singleton ops op ih =>
    rw [run, List.foldl_concat]
    exact ih.apply op

section Laws

variable {c : ChunkCache} {id : ChunkId} {chunk : Shared Chunk}

theorem exists_entry_of_get? (h : c.get? id = some chunk) :
    ∃ e, c.entries[id.key]? = some e ∧ e.chunk = chunk := by
  simpa [get?] using h

theorem get?_apply (h : c.get? id = some chunk) (op : Operation) :
    (c.apply op).get? id = some chunk ∨ op.CanTake id.key := by
  cases op with
  | insert other =>
    by_cases hkey : other.value.id.key = id.key
    · exact .inr hkey
    · exact .inl (by rw [apply, get?_insert, if_neg hkey, h])
  | update | clear => exact .inr trivial
  | get | setExpiryDelay => exact .inl h

theorem get?_update_eq_none_iff {e : CacheEntry} (he : c.entries[id.key]? = some e) {now : Float}
    {held : Nat → Bool} (hheld : held e.chunk.serial = false) :
    (c.update now held).2.get? id = none ↔ ¬ now - c.expiryDelay < e.lastUsed := by
  rw [get?, getElem?_update, he, Option.bind_some, Option.map_eq_none_iff]
  simp [refresh?, hheld]

end Laws

/-- What a run puts in last under a key is in the cache as long as nothing can have taken it. -/
theorem get?_of_putsLast {delay : Float} {before after ops : List Operation}
    {chunk : Shared Chunk} (h : PutsLast before chunk after ops) :
    ((new delay).run ops).get? chunk.value.id = some chunk ∨
      ∃ op ∈ after, op.CanTake chunk.value.id.key := by
  obtain ⟨rfl, -⟩ := h
  induction after using List.reverseRecOn with
  | nil =>
    left
    rw [run, List.foldl_concat, apply, get?_insert, if_pos rfl]
  | append_singleton after op ih =>
    rcases ih with hcached | ⟨op', hmem, htake⟩
    · rw [← List.cons_append, ← List.append_assoc, run, List.foldl_concat]
      refine (get?_apply hcached op).imp_right fun htake => ⟨op, by simp, htake⟩
    · exact .inr ⟨op', List.mem_append_left _ hmem, htake⟩

section Finite

variable {ops : List Operation}

theorem isFinite_getLastD {f : Operation → Option Float} {t : Float} (ht : t.isFinite = true)
    (hf : ∀ op ∈ ops, ∀ u, f op = some u → u.isFinite = true) :
    ((ops.filterMap f).getLastD t).isFinite = true := by
  rcases List.mem_cons.1 (List.getLastD_mem_cons (l := ops.filterMap f) (a := t)) with hlast | hlast
  · rw [hlast, ht]
  · obtain ⟨op, hop, hu⟩ := List.mem_filterMap.1 hlast
    exact hf op hop _ hu

theorem isFinite_clock (h : ∀ op ∈ ops, op.isFinite = true) : (clock ops).isFinite = true := by
  refine isFinite_getLastD (by decide) fun op hop u hu => ?_
  have hfinite := h op hop
  cases op with
  | update now held => cases hu; exact hfinite
  | _ => cases hu

theorem PutsLast.isFinite_lastUse {before after : List Operation} {chunk : Shared Chunk}
    (hputs : PutsLast before chunk after ops) (h : ∀ op ∈ ops, op.isFinite = true) (serial : Nat) :
    (lastUse before serial after).isFinite = true := by
  rw [hputs.ops_eq, List.forall_mem_append] at h
  refine isFinite_getLastD (isFinite_clock h.1) fun op hop u hu => ?_
  have hfinite := h.2 op (List.mem_cons_of_mem _ hop)
  cases op with
  | update now held =>
    obtain ⟨-, hnow⟩ := Option.ite_none_right_eq_some.1 hu
    cases hnow
    exact hfinite
  | _ => cases hu

theorem isFinite_delaying {delay : Float} (hdelay : delay.isFinite = true)
    (h : ∀ op ∈ ops, op.isFinite = true) :
    (ops.foldl Operation.delaying delay).isFinite = true := by
  induction ops generalizing delay with
  | nil => exact hdelay
  | cons op ops ih =>
    obtain ⟨hop, hops⟩ := List.forall_mem_cons.1 h
    refine ih ?_ hops
    cases op with
    | setExpiryDelay seconds => exact hop
    | _ => exact hdelay

end Finite

/-- After every run with finite times and delays, the cache holds what its history says. -/
theorem followsHistory_run {delay : Float} {ops : List Operation} (hdelay : delay.isFinite = true)
    (hops : ∀ op ∈ ops, op.isFinite = true) : FollowsHistory delay ops ((new delay).run ops) where
  found id chunk h := by
    obtain ⟨e, he, rfl⟩ := exists_entry_of_get? h
    obtain ⟨hkey, before, after, hputs, -⟩ := (remembers_run delay ops).entries _ e he
    exact ⟨hkey, before, after, hputs⟩
  stays before chunk after hputs := get?_of_putsLast hputs
  leaves id chunk op h := get?_apply h op
  evicted id chunk h before after hputs now held hnow hheld := by
    obtain ⟨e, he, rfl⟩ := exists_entry_of_get? h
    obtain ⟨hkey, before', after', hputs', huse⟩ := (remembers_run delay ops).entries _ e he
    obtain ⟨rfl, -, rfl⟩ := hputs.unique hputs' rfl
    have hlater : (now - ops.foldl Operation.delaying delay).isNaN = false :=
      Double.isNaN_sub hnow (isFinite_delaying hdelay hops)
    have hused : (lastUse before e.chunk.serial after).isNaN = false :=
      Double.isNaN_of_isFinite (hputs.isFinite_lastUse hops _)
    rw [get?_update_eq_none_iff he hheld, huse, expiryDelay_run, ← Double.not_lt_iff hlater hused]
    rfl

/-- A chunk is put in under an id that names the same chunk as an earlier one. It is held until the
clock has been set back, and an update that comes a whole delay later takes it. -/
theorem replacing_chunk_expires :
    let first : Shared Chunk := ⟨0, blank ⟨⟨0, 0⟩, 1⟩⟩
    let second : Shared Chunk := ⟨1, blank ⟨⟨-0, 0⟩, 1⟩⟩
    let before : List Operation := [.insert first, .update 9 fun _ => true]
    let after : List Operation := [.update 4 fun serial => serial == 1, .setExpiryDelay 2]
    let ops := before ++ .insert second :: after
    let c := (new 30).run ops
    ((30 : Float).isFinite = true ∧ ∀ op ∈ ops, op.isFinite = true) ∧
      c.get? first.value.id = some second ∧
      (c.update 6 fun _ => false).2.get? first.value.id = none := by
  intro first second before after ops c
  have hops : ∀ op ∈ ops, op.isFinite = true := by decide
  have hfinite : (30 : Float).isFinite = true := by decide
  have hfollows : FollowsHistory 30 ops c := followsHistory_run hfinite hops
  have hputs : PutsLast before second after ops := ⟨rfl, by simp [after]⟩
  have hsome : (c.get? first.value.id).isSome = true := by decide +kernel
  obtain ⟨chunk, hchunk⟩ := Option.isSome_iff_exists.1 hsome
  obtain ⟨hkey, before', after', hputs'⟩ := hfollows.found _ _ hchunk
  have hequal : second.value.id.key = first.value.id.key := by decide
  obtain ⟨-, rfl, -⟩ := hputs.unique hputs' (hequal.trans hkey.symm)
  refine ⟨⟨hfinite, hops⟩, hchunk, ?_⟩
  exact (hfollows.evicted _ _ hchunk _ _ hputs 6 _ (by decide) rfl).2 (by decide)

end DistantChunks.ChunkCache
