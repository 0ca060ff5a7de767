import TuneBlocks.Blocks.Core
import TuneBlocks.Blocks.Music

/-!
# The standard registry
-/

namespace TuneBlocks

/-- The core blocks and the music blocks. -/
def Registry.standard (σ : Type) [HasSink σ] : Registry σ :=
  (Registry.empty.addPlugin (Core.plugin σ)).addPlugin (Music.plugin σ)

end TuneBlocks
