/- GID: KVStash/Eviction/Refinement
   digest: Both eviction policies behave like a finite map from keys to sizes. -/

import KVStash.Eviction.S3FIFO
import KVStash.Eviction.SampledLRU

set_option autoImplicit false

namespace KVStash.Eviction

open S3FIFO (newS3FIFO)
open SampledLRU (newSampledLRU)

/-- Whatever the runtime chooses and whatever is called, both policies track what the map of the
calls holds, and the map justifies every answer. -/
theorem policies_behave_like_map (rt : Runtime) (seed : UInt64) (ghostMax : ℤ) :
    BehavesLikeMap (S3FIFO.policy rt) (newS3FIFO seed ghostMax) ∧
      BehavesLikeMap (SampledLRU.policy rt) (newSampledLRU seed) :=
  ⟨(S3FIFO.simulates rt).behavesLikeMap stands_empty,
    (SampledLRU.simulates rt).behavesLikeMap stands_empty⟩

def inOrder : Runtime := ⟨fun _ _ l => l, fun _ _ l => List.Perm.refl l, fun _ => 0⟩

/-- Two keys whose sizes do not fit together into a signed word. -/
def twoHalves : List Op :=
  [.admitKey ⟨1, 7⟩ 4611686018427387904 0, .admitKey ⟨1, 8⟩ 4611686018427387904 0, .usage 0]

/-- The report after them misses the namespace. -/
theorem twoHalves_unreported :
    (∃ s tr, (S3FIFO.policy inOrder).play (newS3FIFO 0 0) twoHalves =
      some (s, tr ++ [(.usage 0, .usages [])]) ∧
      (Tracked.mirror tr).bytes 1 = 2 ^ 63) ∧
    ∃ s tr, (SampledLRU.policy inOrder).play
      (newSampledLRU 0) twoHalves = some (s, tr ++ [(.usage 0, .usages [])]) ∧
      (Tracked.mirror tr).bytes 1 = 2 ^ 63 := by
  let tr : Trace := [(.admitKey ⟨1, 7⟩ 4611686018427387904 0, .done),
    (.admitKey ⟨1, 8⟩ 4611686018427387904 0, .done)]
  have hbytes : (Tracked.mirror tr).bytes 1 = 2 ^ 63 := by decide +kernel
  have hs3 : ∃ x ∈ (S3FIFO.policy inOrder).play (newS3FIFO 0 0) twoHalves,
      x.2 = tr ++ [(.usage 0, .usages [])] := by
    decide +kernel
  have hlru : ∃ x ∈ (SampledLRU.policy inOrder).play (newSampledLRU 0) twoHalves,
      x.2 = tr ++ [(.usage 0, .usages [])] := by decide +kernel
  obtain ⟨⟨s, t⟩, hplay, rfl⟩ := hs3
  obtain ⟨⟨s', t'⟩, hplay', rfl⟩ := hlru
  exact ⟨⟨s, tr, hplay, hbytes⟩, s', tr, hplay', hbytes⟩

end KVStash.Eviction
