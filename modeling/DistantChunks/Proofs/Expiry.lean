import DistantChunks.Chunk.Cache
import DistantChunks.Paging.Config
import DistantChunks.Proofs.ZeroDifference

/-!
# Held chunks and the expiry delay

A chunk that is held when the cache is updated counts as used at that very moment. It stays if the
moment comes after the time of expiry, that is, if the delay takes something off the time. A delay
of zero is a valid one and takes nothing off, so that every update drops all chunks, held or not.
-/

namespace DistantChunks.ChunkCache

inductive Operation where
  | insert (chunk : Shared Chunk)
  | get (id : ChunkId)
  | update (now : Float) (held : Nat → Bool)
  | setExpiryDelay (seconds : Float)
  | clear

/-- The delay in force after an operation; only one operation changes it. -/
def Operation.delaying (delay : Float) : Operation → Float
  | .setExpiryDelay seconds => seconds
  | _ => delay

variable (c : ChunkCache)

def apply : Operation → ChunkCache
  | .insert chunk => c.insert chunk
  | .get _ => c
  | .update now held => (c.update now held).2
  | .setExpiryDelay seconds => c.setExpiryDelay seconds
  | .clear => c.clear

def run (ops : List Operation) : ChunkCache := ops.foldl apply c

theorem expiryDelay_run (ops : List Operation) :
    (c.run ops).expiryDelay = ops.foldl Operation.delaying c.expiryDelay := by
  induction ops generalizing c with
  | nil => rfl
  | cons op ops ih =>
    have happly : (c.apply op).expiryDelay = op.delaying c.expiryDelay := by
      cases op <;> rfl
    rw [List.foldl_cons, ← happly, ← ih]
    rfl

variable {c} {key : ChunkKey} {e : CacheEntry} {now : Float} {held : Nat → Bool}

theorem contains_update_of_held (he : c.entries[key]? = some e)
    (hheld : held e.chunk.serial = true) :
    (c.update now held).2.entries.contains key = true ↔ now - c.expiryDelay < now := by
  rw [Std.ExtTreeMap.contains_eq_isSome_getElem?, getElem?_update, he, Option.bind_some]
  by_cases hlater : now - c.expiryDelay < now <;> simp [refresh?, hheld, hlater]

/-- After every run, an update keeps the held chunks if and only if the delay in force takes
something off the time, or there are no such chunks. -/
theorem update_keeps_held_iff (delay : Float) (ops : List Operation) (now : Float)
    (held : Nat → Bool) :
    let c := (new delay).run ops
    (∀ (key : ChunkKey) (e : CacheEntry), c.entries[key]? = some e →
        held e.chunk.serial = true → (c.update now held).2.entries.contains key = true) ↔
      now - ops.foldl Operation.delaying delay < now ∨
        ∀ (key : ChunkKey) (e : CacheEntry), c.entries[key]? = some e →
          held e.chunk.serial = false := by
  intro c
  have hdelay : c.expiryDelay = ops.foldl Operation.delaying delay :=
    expiryDelay_run (new delay) ops
  rw [← hdelay]
  constructor
  · intro h
    by_cases hlater : now - c.expiryDelay < now
    · exact .inl hlater
    · refine .inr fun key e he => Bool.eq_false_iff.2 fun hheld => ?_
      exact hlater ((contains_update_of_held he hheld).1 (h key e he hheld))
  · rintro (hlater | hnone) key e he hheld
    · exact (contains_update_of_held he hheld).2 hlater
    · rw [hnone key e he] at hheld
      cases hheld

theorem not_contains_update_of_zero (hzero : c.expiryDelay = 0) (he : c.entries[key]? = some e)
    (hheld : held e.chunk.serial = true) :
    (c.update now held).2.entries.contains key = false := by
  rw [← Bool.not_eq_true, contains_update_of_held he hheld, hzero]
  exact Double.not_sub_zero_lt now

def blank (id : ChunkId) : Chunk where
  id := id
  root := .group []
  bound := .empty
  placements := []
  mergeChange := none
  templates := []

theorem zero_delay_drops_held :
    let config : PagingConfig := { PagingConfig.standard with expiryDelay := 0 }
    let chunk : Shared Chunk := ⟨0, blank ⟨⟨0, 0⟩, 1⟩⟩
    let c := (new config.expiryDelay).run [.insert chunk]
    config.validate = .ok config ∧ c.get? chunk.value.id = some chunk ∧
      (c.update 1 fun _ => true).2.contains chunk.value.id = false := by
  intro config chunk c
  have hvalid : config.fault? = none := by decide
  have hcached : c.entries[chunk.value.id.key]? = some ⟨chunk, 0⟩ := by
    simp [c, run, apply, getElem?_insert]
    rfl
  refine ⟨by rw [PagingConfig.validate, hvalid], ?_, not_contains_update_of_zero rfl hcached rfl⟩
  simp [c, run, apply, get?_insert]

end DistantChunks.ChunkCache
