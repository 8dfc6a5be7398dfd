import PittCs.Cs2210.LayoutAgrees

/-!
# When the layouts agree

The sizes and offsets of `GenProgram` in words, what the two traversals of an object
write, and the exact condition.
-/

namespace PittCs.Cs2210

open List Option

variable {env : Nat → List Word} {g : Gen}

/-! ## Bytes and words -/

variable {vs : List VarDecl} {ws : List Word} {f : VarDecl → List Word}

section Bytes

variable {cs : List ClassDef} {v : VarDecl}
  (hsize : ∀ c ∈ cs, g.size_attr c.class_id = BitVec.ofNat 32 (4 * (env c.class_id).length))
include hsize

end Bytes

/-! ## Offsets of a class that fits -/

/-- Chunks that push some words and count their bytes. -/
def ChunksPush (chunks : List Chunk) (ws : List Word) : Prop :=
  Pushes (chunks.flatMap Chunk.code) ws ∧
    (chunks.map Chunk.bytes).sum = BitVec.ofNat 32 (4 * ws.length)

theorem ChunksPush.append {chunks chunks' : List Chunk} {ws' : List Word} (h : ChunksPush chunks ws)
    (h' : ChunksPush chunks' ws') : ChunksPush (chunks ++ chunks') (ws ++ ws') := by
  constructor
  · rw [flatMap_append]
    exact h.1.append h'.1
  · rw [map_append, sum_append, h.2, h'.2, length_append, Nat.mul_add,
      BitVec.ofNat_add]

theorem LiesAt.bounds {xs : List Word} {o : Word} (h : LiesAt ws o xs) :
    0 ≤ o.toInt ∧ o.toInt + 4 * xs.length ≤ 4 * ws.length := by
  rcases h with ⟨before, after, hws, ho⟩
  have hlen := congrArg List.length hws
  rw [length_append, length_append] at hlen
  omega

end PittCs.Cs2210
