import Micro8086.Trie.Shadow
import Micro8086.Proofs.Trie.Faithful

/-!
# Edges that are never followed

An edge is reported when edges of lower rank take all of its bytes. A walk never follows such an edge.
Every other edge is followed by some walk, unless the way to it leads through a reported one.

* `Node.Takes`, `Node.Covers`: the edge that takes a byte, and the edges from which all bytes are taken;
* `Node.shadow?_eq_some_iff`: what is found out about an edge of a node;
* `Trie.Reported`: the edges that a trie reports;
* `Trie.Way`: the edges from one node to another;
* `Trie.walkAlong`: the walk together with the edges that it follows;
* **`Trie.shadows_exact`**: the report is right.
-/

namespace Micro8086

/-! ## Bytes -/

theorem mem_allBytes (b : UInt8) : b ∈ allBytes :=
  List.mem_map.mpr ⟨b.toNat, List.mem_range.mpr b.toNat_lt, UInt8.ofNat_toNat⟩

theorem pairwise_allBytes : allBytes.Pairwise (· < ·) := by
  rw [allBytes, List.pairwise_map]
  refine List.pairwise_lt_range.imp_of_mem fun {i j} hi hj hlt => ?_
  rw [List.mem_range] at hi hj
  rw [UInt8.lt_iff_toNat_lt, UInt8.toNat_ofNat_of_lt' hi, UInt8.toNat_ofNat_of_lt' hj]
  exact hlt

theorem find?_allBytes_eq_some_iff {test : UInt8 → Bool} {b : UInt8} :
    allBytes.find? test = some b ↔ IsLeast {b | test b} b := by
  rw [List.find?_eq_some_iff_append]
  constructor
  · rintro ⟨hb, as, bs, hsplit, has⟩
    refine ⟨hb, fun c hc => ?_⟩
    have hmem := mem_allBytes c
    have hasc := pairwise_allBytes
    rw [hsplit] at hmem hasc
    rcases List.mem_append.mp hmem with hm | hm
    · exact absurd hc (by simpa using has c hm)
    · rcases List.mem_cons.mp hm with rfl | hm
      · exact UInt8.le_refl c
      · exact UInt8.le_of_lt (List.rel_of_pairwise_cons (List.pairwise_append.mp hasc).2.1 hm)
  · rintro ⟨hb, hmin⟩
    obtain ⟨as, bs, hsplit⟩ := List.append_of_mem (mem_allBytes b)
    refine ⟨hb, as, bs, hsplit, fun c hc => ?_⟩
    have hasc := pairwise_allBytes
    rw [hsplit] at hasc
    have hlt : c < b := (List.pairwise_append.mp hasc).2.2 c hc b List.mem_cons_self
    by_contra hne
    exact absurd (hmin (by simpa using hne)) (UInt8.not_le.mpr hlt)

theorem BytePattern.exists_accepts (p : BytePattern) : ∃ b, p.accepts b := by
  refine ⟨p.accepted.headD 0, ?_⟩
  cases p with
  | modRegRm form | mod000Rm form | modOpRm form => cases form <;> rfl
  | movImmedRm w | movImmedReg w | immedRmHead w | immedAccHead w => cases w <;> rfl
  | jump j => cases j <;> rfl
  | _ => rfl

/-! ## Nodes -/

namespace Node

/-- Of the edges that accept a byte, `d` has the lowest rank. -/
structure Takes (n : Node) (d : Edge) (b : UInt8) : Prop where
  mem : d ∈ n.edges
  accepts : d.pattern.accepts b
  le : ∀ e ∈ n.edges, e.pattern.accepts b → d.rank ≤ e.rank

/-- Edges of lower rank accept every byte that the edge `e` accepts. -/
def Covers (n : Node) (e : Edge) : Prop :=
  ∀ b, e.pattern.accepts b → ∃ d ∈ n.edges, d.rank < e.rank ∧ d.pattern.accepts b

variable {n : Node} {d e : Edge} {b : UInt8}

theorem eq_of_rank (h : n.edges.Pairwise fun a b => a.rank < b.rank) (hd : d ∈ n.edges)
    (he : e ∈ n.edges) (hr : d.rank = e.rank) : d = e := by
  obtain ⟨i, hi, rfl⟩ := List.getElem_of_mem hd
  obtain ⟨j, hj, rfl⟩ := List.getElem_of_mem he
  have hlt := List.pairwise_iff_getElem.mp h
  rcases Nat.lt_trichotomy i j with hij | rfl | hij
  · exact absurd hr (Nat.ne_of_lt (hlt i j hi hj hij))
  · rfl
  · exact absurd hr (Nat.ne_of_gt (hlt j i hj hi hij))

theorem exists_follow? (he : e ∈ n.edges) (hb : e.pattern.accepts b) : ∃ d, n.follow? b = some d := by
  rw [← Option.isSome_iff_exists, follow?, List.find?_isSome]
  exact ⟨e, he, hb⟩

theorem Takes.unique (h : n.edges.Pairwise fun a b => a.rank < b.rank) (hd : n.Takes d b)
    (he : n.Takes e b) : d = e :=
  eq_of_rank h hd.mem he.mem (Nat.le_antisymm (hd.le e he.mem he.accepts) (he.le d hd.mem hd.accepts))

theorem follow?_eq_some_iff (h : n.edges.Pairwise fun a b => a.rank < b.rank) :
    n.follow? b = some d ↔ n.Takes d b := by
  have htakes : ∀ {d}, n.follow? b = some d → n.Takes d b := by
    intro d hd
    obtain ⟨hacc, as, bs, hsplit, has⟩ := List.find?_eq_some_iff_append.mp hd
    refine ⟨List.mem_of_find?_eq_some hd, hacc, fun e he hb => ?_⟩
    rw [hsplit] at he h
    rcases List.mem_append.mp he with hm | hm
    · exact absurd hb (by simpa using has e hm)
    · rcases List.mem_cons.mp hm with rfl | hm
      · exact Nat.le_refl _
      · exact Nat.le_of_lt (List.rel_of_pairwise_cons (List.pairwise_append.mp h).2.1 hm)
  refine ⟨htakes, fun hd => ?_⟩
  obtain ⟨e, he⟩ := exists_follow? hd.mem hd.accepts
  rw [he, (htakes he).unique h hd]

theorem covers_iff (h : n.edges.Pairwise fun a b => a.rank < b.rank) (he : e ∈ n.edges) :
    n.Covers e ↔ ∀ b, ¬ n.Takes e b := by
  constructor
  · intro hc b hb
    obtain ⟨d, hd, hlt, hacc⟩ := hc b hb.accepts
    exact absurd (hb.le d hd hacc) (Nat.not_le.mpr hlt)
  · intro hno b hb
    obtain ⟨d, hd⟩ := exists_follow? he hb
    rw [follow?_eq_some_iff h] at hd
    have hne : d ≠ e := fun heq => hno b (heq ▸ hd)
    have hle := hd.le e he hb
    exact ⟨d, hd.mem, Nat.lt_of_le_of_ne hle fun hr => hne (eq_of_rank h hd.mem he hr), hd.accepts⟩

/-- **What is found out about an edge**: whether it is covered, and the edge that takes the smallest
of its bytes. -/
theorem shadow?_eq_some_iff (h : n.edges.Pairwise fun a b => a.rank < b.rank) (he : e ∈ n.edges) :
    n.shadow? e = some d ↔ n.Covers e ∧ ∃ b, IsLeast {b | e.pattern.accepts b} b ∧ n.Takes d b := by
  have hall : ((allBytes.filter e.pattern.accepts).all fun b => n.follow? b != some e) = true ↔
      n.Covers e := by
    rw [covers_iff h he, List.all_eq_true]
    constructor
    · intro hno b hb
      have hmem : b ∈ allBytes.filter e.pattern.accepts :=
        List.mem_filter.mpr ⟨mem_allBytes b, hb.accepts⟩
      simpa [(follow?_eq_some_iff h).mpr hb] using hno b hmem
    · intro hno b _
      simpa [follow?_eq_some_iff h] using hno b
  have hfirst : (allBytes.filter e.pattern.accepts).head?.bind n.follow? = some d ↔
      ∃ b, IsLeast {b | e.pattern.accepts b} b ∧ n.Takes d b := by
    rw [List.head?_filter, Option.bind_eq_some_iff]
    simp only [find?_allBytes_eq_some_iff, follow?_eq_some_iff h]
  rw [shadow?]
  split_ifs with hc
  · rw [hfirst, ← hall]
    exact ⟨fun hd => ⟨hc, hd⟩, fun hd => hd.2⟩
  · rw [← hall]
    exact ⟨nofun, fun hd => absurd hd.1 hc⟩

/-- There is an edge that takes the smallest byte of another one. -/
theorem exists_takes_least (h : n.edges.Pairwise fun a b => a.rank < b.rank) (he : e ∈ n.edges) :
    ∃ b d, IsLeast {b | e.pattern.accepts b} b ∧ n.Takes d b := by
  obtain ⟨c, hc⟩ := e.pattern.exists_accepts
  obtain ⟨b, hb⟩ : ∃ b, allBytes.find? e.pattern.accepts = some b := by
    rw [← Option.isSome_iff_exists, List.find?_isSome]
    exact ⟨c, mem_allBytes c, hc⟩
  have hleast := find?_allBytes_eq_some_iff.mp hb
  obtain ⟨d, hd⟩ := exists_follow? he hleast.1
  exact ⟨b, d, hleast, (follow?_eq_some_iff h).mp hd⟩

end Node

namespace Trie

/-! ## The report -/

/-- The trie reports the edge `e` of node `i`. -/
def Reported (t : Trie) (i : Nat) (e : Edge) : Prop := ∃ taker, ⟨i, e.pattern, taker⟩ ∈ t.shadows

theorem mem_shadows {t : Trie} {s : Shadow} :
    s ∈ t.shadows ↔ ∃ e ∈ (t.node s.node).edges, e.pattern = s.pattern ∧
      ∃ d, (t.node s.node).shadow? e = some d ∧ d.pattern = s.taker := by
  obtain ⟨i, pattern, taker⟩ := s
  rw [shadows, List.mem_flatMap]
  constructor
  · rintro ⟨j, -, hs⟩
    obtain ⟨e, he, hmap⟩ := List.mem_filterMap.mp hs
    obtain ⟨d, hd, heq⟩ := Option.map_eq_some_iff.mp hmap
    obtain ⟨rfl, rfl, rfl⟩ := Shadow.mk.inj heq
    exact ⟨e, he, rfl, d, hd, rfl⟩
  · rintro ⟨e, he, rfl, d, hd, rfl⟩
    have hi : i < t.nodes.size := Nat.lt_of_not_le fun hle => by
      rw [node_eq_default hle] at he
      cases he
    exact ⟨i, List.mem_range.mpr hi, List.mem_filterMap.mpr ⟨e, he, by rw [hd]; rfl⟩⟩

section Report

variable {t : Trie} {table : List Encoding} {i : Nat} {e : Edge}

/-- **Reported are the edges that are covered.** -/
theorem Faithful.reported_iff (h : t.Faithful table) (he : e ∈ (t.node i).edges) :
    t.Reported i e ↔ (t.node i).Covers e := by
  have hasc := h.ascending i
  constructor
  · rintro ⟨taker, hs⟩
    obtain ⟨e', he', hpattern, d, hd, -⟩ := mem_shadows.mp hs
    obtain rfl : e' = e := List.inj_on_of_nodup_map (h.distinct i) he' he hpattern
    exact ((Node.shadow?_eq_some_iff hasc he).mp hd).1
  · intro hc
    obtain ⟨b, d, hb, hd⟩ := Node.exists_takes_least hasc he
    have hshadow := (Node.shadow?_eq_some_iff hasc he).mpr ⟨hc, b, hb, hd⟩
    exact ⟨d.pattern, mem_shadows.mpr ⟨e, he, rfl, d, hshadow, rfl⟩⟩

theorem Faithful.exists_byte (h : t.Faithful table) (he : e ∈ (t.node i).edges)
    (hr : ¬ t.Reported i e) : ∃ b, (t.node i).follow? b = some e := by
  rw [h.reported_iff he, Node.covers_iff (h.ascending i) he] at hr
  obtain ⟨b, hb⟩ := not_forall_not.mp hr
  exact ⟨b, (Node.follow?_eq_some_iff (h.ascending i)).mpr hb⟩

theorem Faithful.not_reported (h : t.Faithful table) {b : UInt8}
    (hf : (t.node i).follow? b = some e) : ¬ t.Reported i e := by
  have he : e ∈ (t.node i).edges := List.mem_of_find?_eq_some hf
  rw [h.reported_iff he, Node.covers_iff (h.ascending i) he]
  exact fun hno => hno b ((Node.follow?_eq_some_iff (h.ascending i)).mp hf)

end Report

/-! ## Ways -/

/-- The edges from one node to another, each with the node that it leaves. -/
inductive Way (t : Trie) : Nat → List (Nat × Edge) → Nat → Prop where
  | stay (i : Nat) : t.Way i [] i
  | go {i j : Nat} {e : Edge} {w : List (Nat × Edge)} (he : e ∈ (t.node i).edges)
      (h : t.Way e.child w j) : t.Way i ((i, e) :: w) j

section Ways

variable {t : Trie} {table : List Encoding} {i j k : Nat} {e : Edge} {p : List BytePattern}
  {w w' : List (Nat × Edge)}

/-- The patterns of the edges. -/
def patterns (w : List (Nat × Edge)) : List BytePattern := w.map fun a => a.2.pattern

theorem Way.concat (h : t.Way i w j) (he : e ∈ (t.node j).edges) :
    t.Way i (w ++ [(j, e)]) e.child := by
  induction h with
  | stay i => exact .go he (.stay e.child)
  | go hd _ ih => exact .go hd (ih he)

theorem Way.spells (h : t.Way i w j) (hp : t.Spells p i) : t.Spells (p ++ patterns w) j := by
  induction h generalizing p with
  | stay i =>
    rw [patterns, List.map_nil, List.append_nil]
    exact hp
  | @go i j e w he h ih =>
    have hcons : p ++ patterns ((i, e) :: w) = (p ++ [e.pattern]) ++ patterns w := by
      rw [List.append_assoc]
      rfl
    rw [hcons]
    exact ih (hp.edge he)

theorem exists_way (h : t.Spells p i) : ∃ w, t.Way root w i ∧ patterns w = p := by
  induction h with
  | root => exact ⟨[], .stay root, rfl⟩
  | edge _ he ih =>
    obtain ⟨w, hw, rfl⟩ := ih
    exact ⟨_, hw.concat he, List.map_append⟩

theorem Faithful.way_unique (h : t.Faithful table) (hw : t.Way i w j) (hw' : t.Way i w' k)
    (hp : patterns w = patterns w') : w = w' := by
  induction hw generalizing w' with
  | stay i => exact (List.map_eq_nil_iff.mp hp.symm).symm
  | @go i j e w he _ ih =>
    cases hw' with
    | stay => cases hp
    | @go _ _ e' w' he' hw' =>
      obtain ⟨hpattern, htail⟩ := List.cons.inj hp
      obtain rfl : e = e' := List.inj_on_of_nodup_map (h.distinct i) he he' hpattern
      rw [ih hw' htail]

/-- **One way leads to each node.** -/
theorem Faithful.existsUnique_way (h : t.Faithful table) (hi : i < t.nodeCount) :
    ∃! w, t.Way root w i := by
  obtain ⟨p, hp, honly⟩ := h.way i hi
  obtain ⟨w, hw, rfl⟩ := exists_way hp
  exact ⟨w, hw, fun w' hw' => h.way_unique hw' hw (honly _ (hw'.spells .root))⟩

end Ways

/-! ## Walks -/

/-- The walk from a node, and the edges that it follows, each with the node that it leaves. -/
def walkAlong (t : Trie) (code : Array UInt8) (i : Nat) (offset : Int) (f : Fields) :
    Decoded × List (Nat × Edge) :=
  if (t.node i).isTerminal then
    (⟨f, .ok offset⟩, [])
  else if offset ≥ code.size then
    (⟨f, .error (.truncated offset code.size)⟩, [])
  else
    let byte := byteAt code offset
    match (t.node i).follow? byte with
    | none => (⟨f, .error (.noMatch offset byte)⟩, [])
    | some e =>
      let (d, w) := t.walkAlong code e.child (offset + 1) (e.pattern.extract byte f)
      (d, (i, e) :: w)
termination_by (code.size - offset).toNat

section Walks

variable {t : Trie} {table : List Encoding} {i j : Nat} {w : List (Nat × Edge)}

theorem fst_walkAlong (t : Trie) (code : Array UInt8) (i : Nat) (offset : Int) (f : Fields) :
    (t.walkAlong code i offset f).1 = t.walk code i offset f := by
  fun_induction walkAlong t code i offset f with
  | case1 i offset f hterm => exact (walk_of_isTerminal hterm f).symm
  | case2 i offset f hterm ho => exact (walk_of_le hterm ho f).symm
  | case3 i offset f hterm ho byte hn => exact (walk_of_none hterm (by omega) hn f).symm
  | case4 i offset f hterm ho byte e he d w hd ih =>
    rw [walk_of_some hterm (by omega) he, ← ih, hd]

section Steps

variable {code : Array UInt8} {offset : Int}

theorem walkAlong_of_isTerminal (h : (t.node i).isTerminal) (f : Fields) :
    t.walkAlong code i offset f = (⟨f, .ok offset⟩, []) := by
  rw [walkAlong, if_pos h]

theorem walkAlong_of_le (h : ¬ (t.node i).isTerminal) (ho : code.size ≤ offset) (f : Fields) :
    t.walkAlong code i offset f = (⟨f, .error (.truncated offset code.size)⟩, []) := by
  rw [walkAlong, if_neg h, if_pos ho]

theorem walkAlong_of_none (h : ¬ (t.node i).isTerminal) (ho : offset < code.size)
    (hn : (t.node i).follow? (byteAt code offset) = none) (f : Fields) :
    t.walkAlong code i offset f =
      (⟨f, .error (.noMatch offset (byteAt code offset))⟩, []) := by
  rw [walkAlong, if_neg h, if_neg (by omega)]
  simp only [hn]

theorem walkAlong_of_some (h : ¬ (t.node i).isTerminal) (ho : offset < code.size) {e : Edge}
    (he : (t.node i).follow? (byteAt code offset) = some e) (f : Fields) :
    t.walkAlong code i offset f =
      let (d, w) := t.walkAlong code e.child (offset + 1) (e.pattern.extract (byteAt code offset) f)
      (d, (i, e) :: w) := by
  rw [walkAlong.eq_1 t code i, if_neg h, if_neg (by omega)]
  simp only [he]

end Steps

theorem follow?_of_mem_walkAlong {code : Array UInt8} {offset : Int} {f : Fields} {a : Nat × Edge}
    (ha : a ∈ (t.walkAlong code i offset f).2) : ∃ b, (t.node a.1).follow? b = some a.2 := by
  fun_induction walkAlong t code i offset f with
  | case1 | case2 | case3 => cases ha
  | case4 i offset f hterm ho byte e he d w hd ih =>
    rcases List.mem_cons.mp ha with rfl | ha
    · exact ⟨byte, he⟩
    · exact ih (by rw [hd]; exact ha)

/-- **A way without reported edges is walked**: its bytes lead along it wherever they end the code. -/
theorem Faithful.exists_bytes (h : t.Faithful table) (hw : t.Way i w j)
    (hr : ∀ a ∈ w, ¬ t.Reported a.1 a.2) :
    ∃ bs : List UInt8, ∀ (code : Array UInt8) (offset : Nat) (f : Fields),
      code.toList.drop offset = bs → (t.walkAlong code i offset f).2 = w := by
  induction hw with
  | stay i =>
    refine ⟨[], fun code offset f hcode => ?_⟩
    have hsize : code.size ≤ offset := by simpa using List.drop_eq_nil_iff.mp hcode
    by_cases hterm : (t.node i).isTerminal
    · rw [walkAlong_of_isTerminal hterm]
    · rw [walkAlong_of_le hterm (by omega)]
  | @go i j e w he _ ih =>
    obtain ⟨b, hb⟩ := h.exists_byte he (hr (i, e) List.mem_cons_self)
    obtain ⟨bs, hbs⟩ := ih fun a ha => hr a (List.mem_cons_of_mem _ ha)
    refine ⟨b :: bs, fun code offset f hcode => ?_⟩
    have ho : offset < code.size := by
      by_contra hle
      rw [List.drop_eq_nil_of_le (by simpa using hle)] at hcode
      cases hcode
    rw [List.drop_eq_getElem_cons (by simpa using ho), Array.getElem_toList] at hcode
    obtain ⟨hbyte, hrest⟩ := List.cons.inj hcode
    -- a node at which an encoding ends has no edges
    have hterm : ¬ (t.node i).isTerminal := fun hterm => by
      rw [h.leaf i hterm] at he
      cases he
    rw [walkAlong_of_some hterm (by omega) (by rwa [byteAt_natCast ho, hbyte])]
    exact congrArg (List.cons (i, e)) (hbs code (offset + 1) _ hrest)

end Walks

/-- **The report is right.** -/
theorem shadows_exact {table : List Encoding} {t : Trie} (h : build table = .ok t) :
    (∀ i, ∀ e ∈ (t.node i).edges, t.Reported i e ↔ (t.node i).Covers e) ∧
    (∀ s ∈ t.shadows, ∃ e ∈ (t.node s.node).edges, e.pattern = s.pattern ∧
      ∃ b d, IsLeast {b | e.pattern.accepts b} b ∧ (t.node s.node).Takes d b ∧
        d.pattern = s.taker) ∧
    (∀ (code : Array UInt8) (offset : Nat) (f : Fields),
      t.decode code offset f = .ok (t.walkAlong code root offset f).1 ∧
        ∀ a ∈ (t.walkAlong code root offset f).2, ¬ t.Reported a.1 a.2) ∧
    ∀ i, ∀ e ∈ (t.node i).edges, (∃! w, t.Way root w i) ∧ ∀ w, t.Way root w i →
      (∀ a ∈ w ++ [(i, e)], ¬ t.Reported a.1 a.2) →
        ∃ code, ∀ f, (t.walkAlong code root 0 f).2 = w ++ [(i, e)] := by
  have hf := faithful_of_build h
  refine ⟨fun i e he => hf.reported_iff he, fun s hs => ?_, fun code offset f => ⟨?_, ?_⟩,
    fun i e he => ⟨?_, fun w hw hr => ?_⟩⟩
  · obtain ⟨e, he, hpattern, d, hd, htaker⟩ := mem_shadows.mp hs
    obtain ⟨-, b, hb, htakes⟩ := (Node.shadow?_eq_some_iff (hf.ascending _) he).mp hd
    exact ⟨e, he, hpattern, b, d, hb, htakes, htaker⟩
  · rw [decode, if_neg (by omega), fst_walkAlong]
  · intro a ha
    obtain ⟨b, hb⟩ := follow?_of_mem_walkAlong ha
    exact hf.not_reported hb
  · have hchild := hf.forward i e he
    exact hf.existsUnique_way (Nat.lt_trans hchild.1 hchild.2)
  · obtain ⟨bs, hbs⟩ := hf.exists_bytes (hw.concat he) hr
    exact ⟨bs.toArray, fun f => hbs bs.toArray 0 f rfl⟩

/-- Four forms of a mod/rm byte together shadow a byte of data that is listed behind them. -/
theorem shadows_exact_union :
    let table : List Encoding :=
      [⟨"register", [.regRmHead, .modRegRm .register]⟩, ⟨"disp8", [.regRmHead, .modRegRm .disp8]⟩,
        ⟨"disp16", [.regRmHead, .modRegRm .disp16]⟩, ⟨"memory", [.regRmHead, .modRegRm .memory]⟩,
        ⟨"data", [.regRmHead, .dataLo]⟩]
    ∃ t, build table = .ok t ∧ t.shadows = [⟨1, .dataLo, .modRegRm .memory⟩] ∧
      (t.node 1).Covers ⟨.dataLo, 6, 4⟩ ∧ ¬ (t.node 1).Covers ⟨.modRegRm .memory, 5, 3⟩ ∧
      ∃ code, ∀ f, (t.walkAlong code root 0 f).2 =
        [(0, ⟨.regRmHead, 1, 0⟩), (1, ⟨.modRegRm .memory, 5, 3⟩)] := by
  intro table
  obtain ⟨t, ht, hshadows, hroot, hnode⟩ : ∃ t, build table = .ok t ∧
      t.shadows = [⟨1, .dataLo, .modRegRm .memory⟩] ∧
      (t.node root).edges = [⟨.regRmHead, 1, 0⟩] ∧
      (t.node 1).edges = [⟨.modRegRm .register, 2, 0⟩, ⟨.modRegRm .disp8, 3, 1⟩,
        ⟨.modRegRm .disp16, 4, 2⟩, ⟨.modRegRm .memory, 5, 3⟩, ⟨.dataLo, 6, 4⟩] := by
    rw [build_eq_insertAll]
    exact ⟨_, rfl, by decide +kernel, rfl, rfl⟩
  have hreported : ∀ i e, t.Reported i e ↔ i = 1 ∧ e.pattern = .dataLo := fun i e => by
    simp [Reported, hshadows]
  obtain ⟨hcovers, -, -, hwalked⟩ := shadows_exact ht
  refine ⟨t, ht, hshadows, ?_, ?_, ?_⟩
  · exact (hcovers 1 _ (by simp [hnode])).mp ((hreported _ _).mpr ⟨rfl, rfl⟩)
  · rw [← hcovers 1 _ (by simp [hnode]), hreported]
    exact fun hr => nomatch hr.2
  · refine (hwalked 1 ⟨.modRegRm .memory, 5, 3⟩ (by simp [hnode])).2 [(0, ⟨.regRmHead, 1, 0⟩)] ?_ ?_
    · exact .go (by simp [hroot]) (.stay 1)
    · simp [hreported]

end Trie

end Micro8086
