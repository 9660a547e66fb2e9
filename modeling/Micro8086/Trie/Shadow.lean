import Micro8086.Trie.Basic
import Micro8086.Log

/-!
# Shadowed edges

An edge is shadowed when earlier edges of its node take every byte that it accepts, so that no walk
follows it.

* `Shadow`: a shadowed edge, and the edge that takes the smallest of its bytes;
* `Trie.shadows`: all of them, node by node;
* `Trie.records`: what the log says of a new trie.
-/

namespace Micro8086

/-- The edge with pattern `pattern` of node `node` is shadowed; the edge with pattern `taker` takes
its smallest byte. -/
structure Shadow where
  node : Nat
  pattern : BytePattern
  taker : BytePattern
  deriving DecidableEq

/-- The edge that takes the smallest byte of a shadowed edge; nothing for an edge that some byte
reaches. -/
def Node.shadow? (n : Node) (e : Edge) : Option Edge :=
  let bytes := allBytes.filter e.pattern.accepts
  if bytes.all fun b => n.follow? b != some e then bytes.head?.bind n.follow? else none

namespace Trie

/-- The shadowed edges of the node at a position. -/
def shadowsAt (t : Trie) (i : Nat) : List Shadow :=
  let n := t.node i
  n.edges.filterMap fun e => (n.shadow? e).map fun taker => ⟨i, e.pattern, taker.pattern⟩

/-- The shadowed edges of a trie, node by node. -/
def shadows (t : Trie) : List Shadow := (List.range t.nodeCount).flatMap t.shadowsAt

/-- The records on the construction of a trie from a number of encodings. -/
def records (t : Trie) (encodings : Nat) : List Record :=
  ⟨.debug, .decoder, 177, "Decoder trie: " ++ toString encodings ++ " paths, " ++
      toString t.nodeCount ++ " nodes"⟩ ::
    t.shadows.map fun s =>
      ⟨.debug, .decoder, 180, "Decode edge " ++ s.pattern.label ++ " at node " ++ toString s.node ++
        " is unreachable (shadowed by " ++ s.taker.label ++ ")"⟩

end Trie

end Micro8086
