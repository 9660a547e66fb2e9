import Micro8086.Encoding

/-!
# Decoding tries

The encodings of a table are merged into a trie: encodings with a common beginning share its nodes.
Nodes are kept in one array and refer to each other by position, the root first. An edge carries the
rank of the encoding that created it, which is its place in the table, and the edges of a node are put
in the order of their ranks. Since encodings are inserted in the order of the table, they have that
order already (`Trie.build_eq_insertAll`).

* `Edge`, `Node`, `Trie`;
* `TableError`: why a table has no trie. No encoding may be empty or begin another one;
* `Trie.build`: the trie of a table;
* `Trie.standard`: the trie of `Encoding.table`.
-/

namespace Micro8086

/-- An edge of a trie. -/
structure Edge where
  pattern : BytePattern
  child : Nat
  rank : Nat
  deriving DecidableEq

namespace Edge

/-- Puts an edge before the first one that does not precede it by rank. -/
def place (e : Edge) : List Edge → List Edge
  | [] => [e]
  | f :: rest => if e.rank ≤ f.rank then e :: f :: rest else f :: place e rest

/-- Edges in the order of their ranks. Those of one rank keep their order. -/
def sort (edges : List Edge) : List Edge := edges.foldr place []

theorem sort_of_ascending {edges : List Edge} (h : edges.Pairwise fun a b => a.rank < b.rank) :
    sort edges = edges := by
  induction h with
  | nil => rfl
  | @cons e rest hlt _ ih =>
    rw [sort, List.foldr_cons, ← sort, ih]
    cases rest with
    | nil => rfl
    | cons f rest => exact if_pos (Nat.le_of_lt (hlt f List.mem_cons_self))

end Edge

/-- A node of a trie. An encoding that ends here gives the node its name. -/
structure Node where
  edges : List Edge := []
  ending : Option String := none
  deriving DecidableEq, Inhabited

/-- An encoding ends at the node. -/
def Node.isTerminal (n : Node) : Bool := n.ending.isSome

/-- The first edge of a node that accepts a byte. -/
def Node.follow? (n : Node) (byte : UInt8) : Option Edge :=
  n.edges.find? fun e => e.pattern.accepts byte

/-- A trie over encodings. -/
structure Trie where
  nodes : Array Node
  deriving DecidableEq

/-- Why a table has no trie. -/
inductive TableError where
  /-- The encoding has no steps. -/
  | noSteps (name : String)
  /-- The encoding goes on where another one ends. -/
  | runsPast (name other : String)
  /-- The encoding has the steps of another one. -/
  | duplicates (name other : String)
  /-- The encoding ends where another one goes on. -/
  | stopsShort (name : String)
  deriving DecidableEq

/-- The text of an error. -/
def TableError.message : TableError → String
  | .noSteps name => "Decode path '" ++ name ++ "' has no steps"
  | .runsPast name other =>
    "Decode path '" ++ name ++ "' extends path '" ++ other ++ "', which is already complete"
  | .duplicates name other => "Decode path '" ++ name ++ "' duplicates path '" ++ other ++ "'"
  | .stopsShort name => "Decode path '" ++ name ++ "' is a prefix of a longer path"

namespace Trie

/-- The position of the root. -/
def root : Nat := 0

/-- The trie without encodings. -/
def empty : Trie := ⟨#[{}]⟩

/-- The node at a position. -/
def node (t : Trie) (i : Nat) : Node := t.nodes.getD i {}

/-- The number of nodes. -/
def nodeCount (t : Trie) : Nat := t.nodes.size

/-! ## Construction -/

/-- A new node, reached from node `i` by a new edge. -/
def addChild (t : Trie) (i : Nat) (pattern : BytePattern) (rank : Nat) : Trie :=
  let child := t.nodes.size
  ⟨(t.nodes.modify i fun n => { n with edges := n.edges ++ [⟨pattern, child, rank⟩] }).push {}⟩

/-- Names node `i` as the end of an encoding. -/
def close (t : Trie) (i : Nat) (name : String) : Trie :=
  ⟨t.nodes.modify i fun n => { n with ending := some name }⟩

/-- Ends an encoding at node `i`. -/
def finish (name : String) (i : Nat) (t : Trie) : Except TableError Trie :=
  match t.node i with
  | ⟨_, some other⟩ => .error (.duplicates name other)
  | ⟨_ :: _, none⟩ => .error (.stopsShort name)
  | ⟨[], none⟩ => .ok (t.close i name)

/-- Inserts the remaining steps of an encoding below node `i`. -/
def insertBelow (name : String) (rank : Nat) : List BytePattern → Nat → Trie → Except TableError Trie
  | [], i, t => t.finish name i
  | p :: ps, i, t =>
    match (t.node i).ending with
    | some other => .error (.runsPast name other)
    | none =>
      match (t.node i).edges.find? fun e => e.pattern = p with
      | some e => insertBelow name rank ps e.child t
      | none => insertBelow name rank ps t.nodes.size (t.addChild i p rank)

/-- Inserts an encoding. -/
def insert (t : Trie) (rank : Nat) (e : Encoding) : Except TableError Trie :=
  if e.steps.isEmpty then
    .error (.noSteps e.name)
  else
    insertBelow e.name rank e.steps root t

/-- Inserts encodings whose ranks start at `rank`. -/
def insertAll : Nat → List Encoding → Trie → Except TableError Trie
  | _, [], t => .ok t
  | rank, e :: es, t =>
    match t.insert rank e with
    | .error err => .error err
    | .ok t => insertAll (rank + 1) es t

/-- Puts the edges of each node in the order of their ranks. -/
def sortEdges (t : Trie) : Trie := ⟨t.nodes.map fun n => { n with edges := Edge.sort n.edges }⟩

/-- The trie of a table. -/
def build (table : List Encoding) : Except TableError Trie := (insertAll 0 table empty).map sortEdges

/-- The trie of the encodings of the subset. -/
def standard : Trie :=
  match build Encoding.table with
  | .ok t => t
  | .error _ => empty

end Trie

end Micro8086
