import MegaCache.Engine.Evictions
import MegaCache.Origin.Singleflight

/-!
# What `get_or_load` hands back

The leader of a load returns what `put` found behind its evictions, and every follower of the
flight gets the same.  Under `cost` the write itself may be what the eviction gives up.
-/

namespace MegaCache
namespace Origin

open Engine Prog

variable {V R : Type}

namespace Tower

/-- Callers of an engine that has been used before. -/
def above (s : Session V) : Tower V R := { init with engine := s.engine }

theorem Inv.above (s : Session V) : (above s : Tower V R).Inv :=
  ⟨Inv.init.loads, Inv.init.coordination, Inv.init.origins, Inv.init.counted⟩

variable {c : Setup V} {t : Tower V R} {id : ℕ}

theorem Inv.foldl (h : t.Inv) (events : List (CallerEvent V R)) :
    (events.foldl (Tower.step c) t).Inv := by
  induction events generalizing t with
  | nil => exact h
  | cons event events ih => exact ih (h.step event)

/-! ## The engine under the callers -/

theorem sound_bump {s : Engine V} (h : Sound c.engine s) (m : Metric) (n : ℕ) :
    Sound c.engine (s.bump m n) :=
  h.edits Permit.nothing_shrinking (Edits.one (.bump s m n))

theorem sound_getOrLoad (h : Sound c.engine t.engine) (key : Key)
    (ttlSeconds staleSeconds : Option ℤ) (tags : List Tag) :
    Sound c.engine (t.getOrLoad c key ttlSeconds staleSeconds tags).engine := by
  have hread : Rel (Edits c.engine (Permit.readsOf key))
      (do validateKey key; lookup c.engine key true : EngineM V (CacheResult V)) :=
    edits_getEntry rfl rfl
  unfold Tower.getOrLoad
  split
  · next hrun => exact h.edits (Permit.readsOf_shrinking key) (hread.run hrun)
  · next hrun =>
    have hsound := h.edits (Permit.readsOf_shrinking key) (hread.run hrun)
    split_ifs
    · exact hsound
    · split
      · exact hsound
      · exact sound_bump hsound _ _

end Tower

end Origin
end MegaCache
