import Mathlib.Tactic.Common
import Micro8086.Trie.Basic

/-!
# The arena of a trie

A trie is built by inserting encodings one after the other, and its nodes refer to each other by
position. Seen from outside a node is the sequence of patterns that leads to it from the root, its
label.

* `firstWith`: the rank of the first row of a table that begins with given patterns;
* `Trie.Labelled`: the nodes are the beginnings of the rows, each once, and the edges of a node are
  the patterns that go on from its label, in the order of their first rows;
* `Trie.EndsAt`: an encoding ends at a node when its steps are the label;
* `PrefixFree`: no encoding is empty or begins another one;
* `build_eq_insertAll`: the edges are inserted in their order, so that sorting them changes nothing;
* **`build_cases`**: a table has a trie exactly when it is prefix-free, and the trie is labelled.
-/

namespace Micro8086

/-! ## First rows -/

/-- The rank of the first row that begins with the patterns `p`. -/
def firstWith (rows : List (List BytePattern)) (p : List BytePattern) : Option Nat :=
  rows.findIdx? fun r => p <+: r

section FirstWith

variable {rows : List (List BytePattern)} {p r : List BytePattern} {q : BytePattern} {k : Nat}

theorem firstWith_eq_none_iff : firstWith rows p = none ↔ ∀ r ∈ rows, ¬ p <+: r := by
  simp [firstWith]

theorem getElem?_firstWith (h : firstWith rows p = some k) : ∃ r, rows[k]? = some r ∧ p <+: r := by
  obtain ⟨hk, hp, -⟩ := List.findIdx?_eq_some_iff_getElem.mp h
  exact ⟨rows[k], List.getElem?_eq_getElem hk, of_decide_eq_true hp⟩

theorem firstWith_le {j : Nat} (h : firstWith rows p = some k) (hr : rows[j]? = some r)
    (hp : p <+: r) : k ≤ j := by
  obtain ⟨hk, _, hmin⟩ := List.findIdx?_eq_some_iff_getElem.mp h
  obtain ⟨hj, rfl⟩ := List.getElem?_eq_some_iff.mp hr
  exact Nat.le_of_not_lt fun hlt => hmin j hlt (decide_eq_true hp)

theorem firstWith_lt_length (h : firstWith rows p = some k) : k < rows.length := by
  obtain ⟨r, hr, -⟩ := getElem?_firstWith h
  exact (List.getElem?_eq_some_iff.mp hr).1

theorem exists_row_of_firstWith (h : firstWith rows p = some k) : ∃ r ∈ rows, p <+: r := by
  obtain ⟨r, hr, hp⟩ := getElem?_firstWith h
  exact ⟨r, List.mem_of_getElem? hr, hp⟩

theorem exists_firstWith {r : List BytePattern} (hr : r ∈ rows) (hp : p <+: r) :
    ∃ k, firstWith rows p = some k := by
  rw [← Option.ne_none_iff_exists']
  exact fun hn => firstWith_eq_none_iff.mp hn r hr hp

theorem exists_firstWith_of_concat (h : firstWith rows (p ++ [q]) = some k) :
    ∃ j, firstWith rows p = some j := by
  obtain ⟨r, hr, hp⟩ := exists_row_of_firstWith h
  exact exists_firstWith hr ((List.prefix_append p [q]).trans hp)

theorem firstWith_concat_of_not (h : ¬ p <+: r) : firstWith (rows ++ [r]) p = firstWith rows p := by
  simp [firstWith, h]

theorem firstWith_concat_of_some (h : firstWith rows p = some k) :
    firstWith (rows ++ [r]) p = some k := by
  unfold firstWith at h ⊢
  rw [List.findIdx?_append, h]
  rfl

theorem firstWith_concat_of_none (h : firstWith rows p = none) (hp : p <+: r) :
    firstWith (rows ++ [r]) p = some rows.length := by
  unfold firstWith at h ⊢
  rw [List.findIdx?_append, h]
  simp [hp]

theorem firstWith_concat_of_begun (h : firstWith rows r = some k) :
    firstWith (rows ++ [r]) = firstWith rows := by
  funext x
  by_cases hx : x <+: r
  · obtain ⟨s, hs, hrs⟩ := exists_row_of_firstWith h
    obtain ⟨j, hj⟩ := exists_firstWith hs (hx.trans hrs)
    rw [hj, firstWith_concat_of_some hj]
  · exact firstWith_concat_of_not hx

theorem concat_not_begins (p : List BytePattern) (q : BytePattern) : ¬ p ++ [q] <+: p := fun h => by
  have := h.length_le
  rw [List.length_append, List.length_singleton] at this
  omega

theorem firstWith_concat_step (hn : firstWith rows (r ++ [q]) = none) (x : List BytePattern) :
    firstWith (rows ++ [r ++ [q]]) x =
      if x = r ++ [q] then some rows.length else firstWith (rows ++ [r]) x := by
  split_ifs with hx
  · subst hx
    exact firstWith_concat_of_none hn (List.prefix_refl _)
  · by_cases hxr : x <+: r
    · rcases hf : firstWith rows x with _ | k
      · rw [firstWith_concat_of_none hf (hxr.trans (List.prefix_append r [q])),
          firstWith_concat_of_none hf hxr]
      · rw [firstWith_concat_of_some hf, firstWith_concat_of_some hf]
    · rw [firstWith_concat_of_not hxr, firstWith_concat_of_not]
      rw [List.prefix_concat_iff]
      exact fun h => h.elim hx hxr

end FirstWith

/-! ## Nodes -/

namespace Trie

section Nodes

variable {t : Trie} {i j : Nat} {q : BytePattern} {rank : Nat} {name : String}

theorem node_eq (t : Trie) (i : Nat) : t.node i = t.nodes[i]?.getD {} := by
  rw [node, Array.getD_eq_getD_getElem?]

theorem node_eq_default (h : t.nodes.size ≤ i) : t.node i = {} := by
  rw [node_eq, Array.getElem?_eq_none h, Option.getD_none]

theorem size_addChild : (t.addChild i q rank).nodes.size = t.nodes.size + 1 := by
  simp [addChild]

theorem node_addChild_self (h : i < t.nodes.size) :
    (t.addChild i q rank).node i =
      { t.node i with edges := (t.node i).edges ++ [⟨q, t.nodes.size, rank⟩] } := by
  rw [node_eq, node_eq, addChild, Array.getElem?_push, Array.size_modify, if_neg (by omega),
    Array.getElem?_modify, if_pos rfl, Array.getElem?_eq_getElem h]
  rfl

theorem node_addChild_of_ne (h : j ≠ i) : (t.addChild i q rank).node j = t.node j := by
  rw [node_eq, node_eq, addChild, Array.getElem?_push, Array.size_modify]
  split_ifs with hj
  · rw [hj, Array.getElem?_eq_none (Nat.le_refl _)]
    rfl
  · rw [Array.getElem?_modify, if_neg (Ne.symm h)]

theorem size_close : (t.close i name).nodes.size = t.nodes.size := by
  simp [close]

theorem node_close_self (h : i < t.nodes.size) :
    (t.close i name).node i = { t.node i with ending := some name } := by
  rw [node_eq, node_eq, close, Array.getElem?_modify, if_pos rfl, Array.getElem?_eq_getElem h]
  rfl

theorem node_close_of_ne (h : j ≠ i) : (t.close i name).node j = t.node j := by
  rw [node_eq, node_eq, close, Array.getElem?_modify, if_neg (Ne.symm h)]

theorem edges_close : ((t.close i name).node j).edges = (t.node j).edges := by
  by_cases h : j = i
  · subst h
    by_cases hj : j < t.nodes.size
    · rw [node_close_self hj]
    · rw [node_eq_default (by rw [size_close]; omega), node_eq_default (by omega)]
  · rw [node_close_of_ne h]

end Nodes

end Trie

/-! ## Labels -/

/-- The edges of a node with label `p` are the patterns with which rows go on from there, by ascending
rank of the first such row. They lead to the nodes labelled so. -/
structure Node.Continues (n : Node) (labels : List (List BytePattern))
    (first : List BytePattern → Option Nat) (p : List BytePattern) : Prop where
  child : ∀ e ∈ n.edges, labels[e.child]? = some (p ++ [e.pattern])
  rank : ∀ e ∈ n.edges, first (p ++ [e.pattern]) = some e.rank
  edge : ∀ q k, first (p ++ [q]) = some k → ∃ e ∈ n.edges, e.pattern = q
  ascending : n.edges.Pairwise fun a b => a.rank < b.rank

/-- The nodes of `t` are the sequences of patterns in `labels`, by position: the root, and once each
the beginnings to which `first` gives a rank. -/
structure Trie.Labelled (t : Trie) (labels : List (List BytePattern))
    (first : List BytePattern → Option Nat) : Prop where
  size_eq : t.nodes.size = labels.length
  nodup : labels.Nodup
  root : labels[Trie.root]? = some []
  begun : ∀ p ∈ labels, p = [] ∨ ∃ k, first p = some k
  node : ∀ i p, labels[i]? = some p → (t.node i).Continues labels first p

/-- Encodings of `table` end exactly at the nodes whose labels are their steps. -/
def Trie.EndsAt (t : Trie) (labels : List (List BytePattern)) (table : List Encoding) : Prop :=
  ∀ i p, labels[i]? = some p → ∀ name, (t.node i).ending = some name ↔ ⟨name, p⟩ ∈ table

section Labels

variable {t : Trie} {n : Node} {labels rows : List (List BytePattern)}
  {first first' : List BytePattern → Option Nat} {i c : Nat} {p r : List BytePattern}
  {q : BytePattern}

theorem Node.continues_of_nil (he : n.edges = []) (hn : ∀ q, first (p ++ [q]) = none) :
    n.Continues labels first p where
  child e h := by rw [he] at h; cases h
  rank e h := by rw [he] at h; cases h
  edge q k h := by rw [hn q] at h; cases h
  ascending := by rw [he]; exact List.Pairwise.nil

theorem Node.Continues.mono (h : n.Continues labels first p)
    (hf : ∀ q, first' (p ++ [q]) = first (p ++ [q])) :
    n.Continues (labels ++ [r]) first' p where
  child e he := by
    have hc := h.child e he
    rw [List.getElem?_append_left (List.getElem?_eq_some_iff.mp hc).1, hc]
  rank e he := by rw [hf]; exact h.rank e he
  edge q k hk := h.edge q k (by rw [← hf, hk])
  ascending := h.ascending

theorem Node.Continues.concat (h : n.Continues labels first p)
    (hlt : ∀ e ∈ n.edges, e.rank < rows.length) (hn : first (p ++ [q]) = none)
    (hf : ∀ x, first' x = if x = p ++ [q] then some rows.length else first x) :
    Node.Continues { n with edges := n.edges ++ [⟨q, labels.length, rows.length⟩] }
      (labels ++ [p ++ [q]]) first' p where
  child e he := by
    rcases List.mem_append.mp he with he | he
    · have hc := h.child e he
      rw [List.getElem?_append_left (List.getElem?_eq_some_iff.mp hc).1, hc]
    · obtain rfl := List.mem_singleton.mp he
      exact List.getElem?_concat_length
  rank e he := by
    rcases List.mem_append.mp he with he | he
    · have hr := h.rank e he
      have hne : p ++ [e.pattern] ≠ p ++ [q] := fun heq => by rw [heq, hn] at hr; cases hr
      rw [hf, if_neg hne, hr]
    · obtain rfl := List.mem_singleton.mp he
      rw [hf, if_pos rfl]
  edge q' k hk := by
    by_cases hq : q' = q
    · exact ⟨_, List.mem_append_right _ (List.mem_singleton_self _), hq.symm⟩
    · rw [hf, if_neg fun heq => hq (by simpa using heq)] at hk
      obtain ⟨e, he, hp⟩ := h.edge q' k hk
      exact ⟨e, List.mem_append_left _ he, hp⟩
  ascending := by
    refine List.pairwise_append.mpr ⟨h.ascending, List.pairwise_singleton _ _, ?_⟩
    intro a ha b hb
    obtain rfl := List.mem_singleton.mp hb
    exact hlt a ha

namespace Trie

theorem Labelled.lt_size (h : t.Labelled labels first) (hi : labels[i]? = some p) :
    i < t.nodes.size := by
  rw [h.size_eq]
  exact (List.getElem?_eq_some_iff.mp hi).1

theorem Labelled.eq_of_label {j : Nat} (h : t.Labelled labels first) (hi : labels[i]? = some p)
    (hj : labels[j]? = some p) : j = i := by
  have hlt := (List.getElem?_eq_some_iff.mp hj).1
  exact (List.getElem?_inj hlt h.nodup).mp (hj.trans hi.symm)

/-- The rank of the root does not matter. -/
theorem Labelled.congr (h : t.Labelled labels first) (hf : ∀ x, x ≠ [] → first' x = first x) :
    t.Labelled labels first' where
  size_eq := h.size_eq
  nodup := h.nodup
  root := h.root
  begun x hx := by
    by_cases hnil : x = []
    · exact Or.inl hnil
    · rw [hf x hnil]
      exact h.begun x hx
  node i x hi := by
    have hc := h.node i x hi
    have hcons : ∀ q, first' (x ++ [q]) = first (x ++ [q]) := fun q => hf _ (by simp)
    exact ⟨hc.child, fun e he => by rw [hcons, hc.rank e he],
      fun q k hk => hc.edge q k (by rw [← hcons, hk]), hc.ascending⟩

theorem getElem?_concat_cases {α : Type} {l : List α} {a b : α} {j : Nat}
    (h : (l ++ [a])[j]? = some b) : l[j]? = some b ∨ (j = l.length ∧ b = a) := by
  by_cases hj : j < l.length
  · rw [List.getElem?_append_left hj] at h
    exact Or.inl h
  · obtain ⟨hl, he⟩ := List.getElem?_eq_some_iff.mp h
    rw [List.length_append, List.length_singleton] at hl
    obtain rfl : j = l.length := by omega
    rw [List.getElem_concat_length rfl] at he
    exact Or.inr ⟨rfl, he.symm⟩

theorem labelled_empty : empty.Labelled [[]] (firstWith []) where
  size_eq := rfl
  nodup := List.pairwise_singleton _ _
  root := rfl
  begun p hp := Or.inl (List.mem_singleton.mp hp)
  node i p hi := by
    obtain ⟨hlt, -⟩ := List.getElem?_eq_some_iff.mp hi
    obtain rfl : i = 0 := Nat.lt_one_iff.mp hlt
    exact Node.continues_of_nil rfl fun _ => rfl

theorem endsAt_empty : empty.EndsAt [[]] [] := by
  intro i p hi name
  obtain ⟨hlt, -⟩ := List.getElem?_eq_some_iff.mp hi
  obtain rfl : i = 0 := Nat.lt_one_iff.mp hlt
  exact ⟨fun h => (nomatch h), fun h => (nomatch h)⟩

/-- **A new child.** The label of a node may be continued by a pattern with which no row goes on. -/
theorem Labelled.addChild (h : t.Labelled labels (firstWith (rows ++ [p])))
    (hi : labels[i]? = some p) (hn : firstWith rows (p ++ [q]) = none) :
    (t.addChild i q rows.length).Labelled (labels ++ [p ++ [q]])
      (firstWith (rows ++ [p ++ [q]])) := by
  have hlt := h.lt_size hi
  have hnew : firstWith (rows ++ [p]) (p ++ [q]) = none := by
    rw [firstWith_concat_of_not (concat_not_begins p q), hn]
  have hfirst := firstWith_concat_step hn
  have hmem : p ++ [q] ∉ labels := fun hm => by
    rcases h.begun _ hm with he | ⟨k, hk⟩
    · simp at he
    · rw [hnew] at hk; cases hk
  refine ⟨?_, ?_, ?_, ?_, ?_⟩
  · rw [size_addChild, h.size_eq, List.length_append, List.length_singleton]
  · exact List.nodup_append.mpr ⟨h.nodup, by simp, fun a ha b hb hab => hmem (by
      rw [← List.mem_singleton.mp hb, ← hab]; exact ha)⟩
  · rw [List.getElem?_append_left (List.getElem?_eq_some_iff.mp h.root).1, h.root]
  · intro x hx
    rw [hfirst]
    split_ifs with hxn
    · exact Or.inr ⟨_, rfl⟩
    · refine h.begun x ((List.mem_append.mp hx).resolve_right fun hx => hxn ?_)
      exact List.mem_singleton.mp hx
  · intro j x hx
    rcases getElem?_concat_cases hx with hj | ⟨rfl, rfl⟩
    · by_cases hji : j = i
      · subst hji
        obtain rfl : p = x := Option.some.inj (hi.symm.trans hj)
        rw [node_addChild_self hlt, h.size_eq]
        refine (h.node j p hj).concat (fun e he => ?_) hnew hfirst
        -- the last row ends at the label, so an edge has a rank among the others
        have hr := (h.node j p hj).rank e he
        rw [firstWith_concat_of_not (concat_not_begins p e.pattern)] at hr
        exact firstWith_lt_length hr
      · rw [node_addChild_of_ne hji]
        refine (h.node j x hj).mono fun q' => ?_
        rw [hfirst, if_neg]
        intro heq
        obtain ⟨rfl, -⟩ := List.append_inj' heq rfl
        exact hji (h.eq_of_label hi hj)
    · rw [← h.size_eq, node_addChild_of_ne (by omega), node_eq_default (Nat.le_refl _)]
      refine Node.continues_of_nil rfl fun q' => ?_
      rw [hfirst, if_neg (by simp)]
      rw [← Option.not_isSome_iff_eq_none, Option.isSome_iff_exists]
      rintro ⟨k, hk⟩
      obtain ⟨j, hj⟩ := exists_firstWith_of_concat hk
      rw [hnew] at hj
      cases hj

theorem EndsAt.addChild {table : List Encoding} (h : t.EndsAt labels table)
    (hs : t.nodes.size = labels.length) (hi : i < t.nodes.size) (k : Nat)
    (hn : ∀ e ∈ table, ¬ r <+: e.steps) : (t.addChild i q k).EndsAt (labels ++ [r]) table := by
  intro j x hj name
  rcases getElem?_concat_cases hj with hj | ⟨rfl, rfl⟩
  · by_cases hji : j = i
    · subst hji
      rw [node_addChild_self hi]
      exact h j x hj name
    · rw [node_addChild_of_ne hji]
      exact h j x hj name
  · rw [← hs, node_addChild_of_ne (by omega), node_eq_default (Nat.le_refl _)]
    exact ⟨fun he => (nomatch he), fun hm => absurd (List.prefix_refl x) (hn _ hm)⟩

theorem Labelled.close (h : t.Labelled labels first) (name : String) :
    (t.close i name).Labelled labels first where
  size_eq := by rw [size_close, h.size_eq]
  nodup := h.nodup
  root := h.root
  begun := h.begun
  node j x hj := by
    obtain ⟨hc, hr, he, ha⟩ := h.node j x hj
    exact ⟨by rw [edges_close]; exact hc, by rw [edges_close]; exact hr,
      by rw [edges_close]; exact he, by rw [edges_close]; exact ha⟩

theorem EndsAt.close {table : List Encoding} (h : t.EndsAt labels table)
    (hl : t.Labelled labels first) (hi : labels[i]? = some p) (hn : (t.node i).ending = none)
    (name : String) : (t.close i name).EndsAt labels (table ++ [⟨name, p⟩]) := by
  intro j x hj name'
  rw [List.mem_append, List.mem_singleton]
  by_cases hji : j = i
  · subst hji
    obtain rfl : p = x := Option.some.inj (hi.symm.trans hj)
    rw [node_close_self (hl.lt_size hi)]
    have hno := (h j p hj name').not.mp (by rw [hn]; exact fun he => (nomatch he))
    simp [hno, eq_comm]
  · rw [node_close_of_ne hji, h j x hj name']
    have hne : ¬ (⟨name', x⟩ : Encoding) = ⟨name, p⟩ := fun he => by
      obtain ⟨-, rfl⟩ := Encoding.mk.inj he
      exact hji (hl.eq_of_label hi hj)
    simp [hne]

end Trie

end Labels

/-! ## Insertion -/

/-- Neither of two sequences of patterns begins the other. -/
def Apart (r s : List BytePattern) : Prop := ¬ r <+: s ∧ ¬ s <+: r

instance : DecidableRel Apart := fun _ _ => by unfold Apart; infer_instance

/-- No encoding is empty or begins another one. -/
def PrefixFree (table : List Encoding) : Prop :=
  (∀ e ∈ table, e.steps ≠ []) ∧ table.Pairwise fun a b => Apart a.steps b.steps

instance : DecidablePred PrefixFree := fun _ => by unfold PrefixFree; infer_instance

namespace Trie

/-- The nodes of the trie are the beginnings of the encodings of a table. -/
def Represents (t : Trie) (table : List Encoding) : Prop :=
  ∃ labels, t.Labelled labels (firstWith (table.map (·.steps))) ∧ t.EndsAt labels table

section Insertion

variable {table : List Encoding} (name : String)

section Equations

variable {name} {t : Trie} {rank i : Nat} {q : BytePattern} {ps : List BytePattern}

theorem insertBelow_of_ending {other : String} (h : (t.node i).ending = some other) :
    insertBelow name rank (q :: ps) i t = .error (.runsPast name other) := by
  simp only [insertBelow, h]

theorem insertBelow_of_edge {e : Edge} (h : (t.node i).ending = none)
    (he : (t.node i).edges.find? (fun e => e.pattern = q) = some e) :
    insertBelow name rank (q :: ps) i t = insertBelow name rank ps e.child t := by
  simp only [insertBelow, h, he]

theorem insertBelow_of_new (h : (t.node i).ending = none)
    (he : (t.node i).edges.find? (fun e => e.pattern = q) = none) :
    insertBelow name rank (q :: ps) i t =
      insertBelow name rank ps t.nodes.size (t.addChild i q rank) := by
  simp only [insertBelow, h, he]

end Equations

theorem finish_cases {t : Trie} {labels : List (List BytePattern)} {i : Nat} {p : List BytePattern}
    (hl : t.Labelled labels (firstWith (table.map (·.steps) ++ [p]))) (he : t.EndsAt labels table)
    (hi : labels[i]? = some p) (hp : ∀ e ∈ table, e.steps <+: p → e.steps = p) :
    (∃ t', t.finish name i = .ok t' ∧ (∀ e ∈ table, Apart e.steps p) ∧
      t'.Represents (table ++ [⟨name, p⟩])) ∨
    (∃ err, t.finish name i = .error err ∧ ∃ e ∈ table, ¬ Apart e.steps p) := by
  have hc := hl.node i p hi
  have hends := he i p hi
  unfold finish
  rcases hnode : t.node i with ⟨edges, _ | other⟩
  · rw [hnode] at hc hends
    rcases edges with _ | ⟨e, es⟩
    · refine Or.inl ⟨_, rfl, fun e hm => ⟨fun hep => ?_, fun hpe => ?_⟩, labels, ?_, ?_⟩
      · exact nomatch (hends e.name).mpr (by rw [← hp e hm hep]; exact hm)
      · -- a row that goes on from the label has an edge there
        obtain ⟨s, hs⟩ := hpe
        rcases s with _ | ⟨q, s⟩
        · rw [List.append_nil] at hs
          exact nomatch (hends e.name).mpr (by rw [hs]; exact hm)
        · have hrow : e.steps ∈ table.map (·.steps) ++ [p] :=
            List.mem_append_left _ (List.mem_map_of_mem hm)
          have hpre : p ++ [q] <+: e.steps := ⟨s, by rw [← hs]; simp⟩
          obtain ⟨k, hk⟩ := exists_firstWith hrow hpre
          obtain ⟨e', he', -⟩ := hc.edge q k hk
          cases he'
      · rw [List.map_append]
        exact hl.close name
      · exact he.close hl hi (by rw [hnode]) name
    · refine Or.inr ⟨_, rfl, ?_⟩
      have hr := hc.rank e List.mem_cons_self
      rw [firstWith_concat_of_not (concat_not_begins p e.pattern)] at hr
      obtain ⟨s, hs, hps⟩ := exists_row_of_firstWith hr
      obtain ⟨e', he', rfl⟩ := List.mem_map.mp hs
      exact ⟨e', he', fun h => h.2 ((List.prefix_append p _).trans hps)⟩
  · refine Or.inr ⟨_, rfl, ⟨other, p⟩, ?_, fun h => h.1 (List.prefix_refl p)⟩
    rw [← hends other, hnode]

/-- **Inserting the rest of an encoding** below the node labelled by its beginning succeeds exactly
when no encoding of the table is comparable with it. -/
theorem insertBelow_cases (ps : List BytePattern) : ∀ {t : Trie} {labels : List (List BytePattern)}
    {i : Nat} {p : List BytePattern}, t.Labelled labels (firstWith (table.map (·.steps) ++ [p])) →
    t.EndsAt labels table → labels[i]? = some p → (∀ e ∈ table, e.steps <+: p → e.steps = p) →
    (∃ t', insertBelow name table.length ps i t = .ok t' ∧ (∀ e ∈ table, Apart e.steps (p ++ ps)) ∧
      t'.Represents (table ++ [⟨name, p ++ ps⟩])) ∨
    (∃ err, insertBelow name table.length ps i t = .error err ∧
      ∃ e ∈ table, ¬ Apart e.steps (p ++ ps)) := by
  induction ps with
  | nil =>
    intro t labels i p hl he hi hp
    rw [List.append_nil]
    exact finish_cases name hl he hi hp
  | cons q ps ih =>
    intro t labels i p hl he hi hp
    have hends := he i p hi
    have hc := hl.node i p hi
    have hcons : p ++ q :: ps = (p ++ [q]) ++ ps := by simp
    rcases hnode : (t.node i).ending with _ | other
    · have hpq : ∀ e ∈ table, e.steps <+: p ++ [q] → e.steps = p ++ [q] := by
        intro e hm hpre
        refine (List.prefix_concat_iff.mp hpre).resolve_right fun hep => ?_
        have := (hends e.name).mpr (by rw [← hp e hm hep]; exact hm)
        rw [hnode] at this
        cases this
      rw [hcons]
      rcases hf : (t.node i).edges.find? fun e => e.pattern = q with _ | e
      · have hn : firstWith (table.map (·.steps)) (p ++ [q]) = none := by
          rw [← Option.not_isSome_iff_eq_none, Option.isSome_iff_exists]
          rintro ⟨k, hk⟩
          obtain ⟨e, hm, hq⟩ := hc.edge q k (firstWith_concat_of_some hk)
          exact List.find?_eq_none.mp hf e hm (decide_eq_true hq)
        have hnt : ∀ e ∈ table, ¬ p ++ [q] <+: e.steps := fun e hm =>
          firstWith_eq_none_iff.mp hn _ (List.mem_map_of_mem hm)
        have hl' := hl.addChild hi hn
        rw [List.length_map] at hl'
        rw [insertBelow_of_new hnode hf]
        refine ih hl' (he.addChild hl.size_eq (hl.lt_size hi) _ hnt) ?_ hpq
        rw [hl.size_eq]
        exact List.getElem?_concat_length
      · have hm := List.mem_of_find?_eq_some hf
        obtain rfl : e.pattern = q := by simpa using List.find?_some hf
        have hr := hc.rank e hm
        rw [firstWith_concat_of_not (concat_not_begins p e.pattern)] at hr
        -- the step is that of an earlier row, so nothing changes
        have hsame : firstWith (table.map (·.steps) ++ [p ++ [e.pattern]]) =
            firstWith (table.map (·.steps) ++ [p]) := by
          obtain ⟨j, hj⟩ := exists_firstWith_of_concat hr
          rw [firstWith_concat_of_begun hr, firstWith_concat_of_begun hj]
        rw [insertBelow_of_edge hnode hf]
        exact ih (by rw [hsame]; exact hl) he (hc.child e hm) hpq
    · refine Or.inr ⟨_, insertBelow_of_ending hnode, ⟨other, p⟩, (hends other).mp hnode, fun h => ?_⟩
      exact h.1 (List.prefix_append p _)

variable {name}

theorem insert_cases {t : Trie} (h : t.Represents table) (e : Encoding) :
    (∃ t', t.insert table.length e = .ok t' ∧ (e.steps ≠ [] ∧ ∀ a ∈ table, Apart a.steps e.steps) ∧
      t'.Represents (table ++ [e])) ∨
    (∃ err, t.insert table.length e = .error err ∧
      ¬ (e.steps ≠ [] ∧ ∀ a ∈ table, Apart a.steps e.steps)) := by
  obtain ⟨labels, hl, he⟩ := h
  unfold insert
  split_ifs with hnil
  · exact Or.inr ⟨_, rfl, fun hs => hs.1 (List.isEmpty_iff.mp hnil)⟩
  · have hl' : t.Labelled labels (firstWith (table.map (·.steps) ++ [[]])) :=
      hl.congr fun x hx => firstWith_concat_of_not fun h => hx (List.prefix_nil.mp h)
    have hne : e.steps ≠ [] := fun h => hnil (List.isEmpty_iff.mpr h)
    rcases insertBelow_cases e.name e.steps hl' he hl.root fun a _ ha => List.prefix_nil.mp ha with
      ⟨t', ht, hap, hr⟩ | ⟨err, ht, a, hm, hap⟩
    · exact Or.inl ⟨t', ht, ⟨hne, hap⟩, hr⟩
    · exact Or.inr ⟨err, ht, fun h => hap (h.2 a hm)⟩

theorem insertAll_cases (es : List Encoding) : ∀ {table : List Encoding} {t : Trie},
    t.Represents table → PrefixFree table →
    (∃ t', insertAll table.length es t = .ok t' ∧ PrefixFree (table ++ es) ∧
      t'.Represents (table ++ es)) ∨
    (∃ err, insertAll table.length es t = .error err ∧ ¬ PrefixFree (table ++ es)) := by
  induction es with
  | nil =>
    intro table t h hp
    rw [List.append_nil]
    exact Or.inl ⟨t, rfl, hp, h⟩
  | cons e es ih =>
    intro table t h hp
    have hcons : table ++ e :: es = (table ++ [e]) ++ es := by simp
    rw [insertAll]
    rcases insert_cases h e with ⟨t', ht, ⟨hne, hap⟩, hr⟩ | ⟨err, ht, hn⟩
    · have hp' : PrefixFree (table ++ [e]) := by
        refine ⟨fun a ha => ?_, List.pairwise_append.mpr ⟨hp.2, List.pairwise_singleton _ _, ?_⟩⟩
        · rcases List.mem_append.mp ha with ha | ha
          · exact hp.1 a ha
          · rw [List.mem_singleton.mp ha]; exact hne
        · intro a ha b hb
          rw [List.mem_singleton.mp hb]
          exact hap a ha
      have hi := ih hr hp'
      rw [List.length_append, List.length_singleton] at hi
      rw [ht, hcons]
      exact hi
    · refine Or.inr ⟨err, by rw [ht], fun hp' => hn ⟨hp'.1 e (by simp), fun a ha => ?_⟩⟩
      exact (List.pairwise_append.mp hp'.2).2.2 a ha e List.mem_cons_self

theorem Represents.sortEdges_eq {t : Trie} (h : t.Represents table) : t.sortEdges = t := by
  obtain ⟨labels, hl, -⟩ := h
  have hnode : ∀ i (hi : i < t.nodes.size),
      { t.nodes[i] with edges := Edge.sort t.nodes[i].edges } = t.nodes[i] := by
    intro i hi
    have hp : labels[i]? = some _ := List.getElem?_eq_getElem (hl.size_eq ▸ hi)
    have hasc := (hl.node i _ hp).ascending
    rw [node_eq, Array.getElem?_eq_getElem hi, Option.getD_some] at hasc
    rw [Edge.sort_of_ascending hasc]
  obtain ⟨nodes⟩ := t
  exact congrArg Trie.mk (Array.ext (by simp) fun i _ hi => by simp [hnode i hi])

theorem represents_empty : empty.Represents [] := ⟨[[]], labelled_empty, endsAt_empty⟩

theorem prefixFree_nil : PrefixFree [] := ⟨fun _ h => (nomatch h), List.Pairwise.nil⟩

/-- **Sorting changes nothing**: the edges of a node are inserted in the order of their ranks. -/
theorem build_eq_insertAll (table : List Encoding) : build table = insertAll 0 table empty := by
  rw [build]
  rcases insertAll_cases table represents_empty prefixFree_nil with ⟨t, ht, -, hr⟩ | ⟨err, herr, -⟩
  · change insertAll 0 table empty = .ok t at ht
    rw [ht, Except.map, hr.sortEdges_eq]
  · change insertAll 0 table empty = .error err at herr
    rw [herr, Except.map]

/-- **A table has a trie exactly when it is prefix-free**, and the nodes of the trie are then the
beginnings of its encodings. -/
theorem build_cases (table : List Encoding) :
    (∃ t, build table = .ok t ∧ PrefixFree table ∧ t.Represents table) ∨
    (∃ err, build table = .error err ∧ ¬ PrefixFree table) := by
  rw [build_eq_insertAll]
  exact insertAll_cases table represents_empty prefixFree_nil

theorem build_error_iff {table : List Encoding} :
    (∃ err, build table = .error err) ↔ ¬ PrefixFree table := by
  rcases build_cases table with ⟨t, ht, hp, -⟩ | ⟨err, herr, hn⟩
  · rw [ht]
    exact ⟨fun ⟨_, h⟩ => (nomatch h), fun hn => absurd hp hn⟩
  · exact ⟨fun _ => hn, fun _ => ⟨err, herr⟩⟩

theorem build_ok_iff {table : List Encoding} : (∃ t, build table = .ok t) ↔ PrefixFree table := by
  rcases build_cases table with ⟨t, ht, hp, -⟩ | ⟨err, herr, hn⟩
  · exact ⟨fun _ => hp, fun _ => ⟨t, ht⟩⟩
  · rw [herr]
    exact ⟨fun ⟨_, h⟩ => (nomatch h), fun hp => absurd hp hn⟩

theorem represents_of_build {table : List Encoding} {t : Trie} (h : build table = .ok t) :
    t.Represents table := by
  rcases build_cases table with ⟨t', ht, -, hr⟩ | ⟨err, herr, -⟩
  · rw [h] at ht
    rw [Except.ok.inj ht]
    exact hr
  · rw [herr] at h
    cases h

end Insertion

end Trie

end Micro8086
