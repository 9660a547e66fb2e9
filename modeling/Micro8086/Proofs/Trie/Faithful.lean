import Mathlib.Data.Finset.Card
import Mathlib.Data.List.Infix
import Mathlib.Order.Bounds.Defs
import Micro8086.Proofs.Trie.Rows

/-!
# Tries are faithful

A table has a trie unless an encoding is empty or begins another one, in whatever order they stand.
The trie has one node for each beginning of an encoding, and an encoding ends where its steps lead.

* `Trie.Spells`: the patterns on the way from the root to a node;
* `Trie.Forward`: edges lead to later nodes. Insertion keeps this;
* `Trie.Labelled.spells_iff`: the way to a node is its label;
* `Trie.Faithful`: what a trie has to do with its table;
* **`Trie.build_faithful`**: which tables have a trie, and that it is faithful.
-/

namespace Micro8086

/-! ## Ways and beginnings -/

/-- The patterns on the way from the root to a node. -/
inductive Trie.Spells (t : Trie) : List BytePattern → Nat → Prop where
  | root : t.Spells [] Trie.root
  | edge {p : List BytePattern} {i : Nat} {e : Edge} (h : t.Spells p i)
      (he : e ∈ (t.node i).edges) : t.Spells (p ++ [e.pattern]) e.child

/-- The beginnings of the encodings of a table, except the empty one. -/
def beginnings (table : List Encoding) : Finset (List BytePattern) :=
  (table.flatMap fun e => e.steps.inits).toFinset.erase []

theorem mem_beginnings {table : List Encoding} {p : List BytePattern} :
    p ∈ beginnings table ↔ p ≠ [] ∧ ∃ e ∈ table, p <+: e.steps := by
  simp [beginnings]

/-- What a trie has to do with its table. -/
structure Trie.Faithful (t : Trie) (table : List Encoding) : Prop where
  /-- Beside the root there is a node for each beginning. -/
  nodeCount_eq : t.nodeCount = 1 + (beginnings table).card
  /-- One edge leads to each node but the root. -/
  parent : ∀ j, j ≠ Trie.root → j < t.nodeCount →
    ∃! a : Nat × Edge, a.2 ∈ (t.node a.1).edges ∧ a.2.child = j
  forward : ∀ i, ∀ e ∈ (t.node i).edges, i < e.child ∧ e.child < t.nodeCount
  /-- One way leads to each node. -/
  way : ∀ i < t.nodeCount, ∃! p, t.Spells p i
  distinct : ∀ i, ((t.node i).edges.map (·.pattern)).Nodup
  ascending : ∀ i, (t.node i).edges.Pairwise fun a b => a.rank < b.rank
  /-- The rank of an edge is the place of the first encoding that begins with the way through it. -/
  rank : ∀ p i, t.Spells p i → ∀ e ∈ (t.node i).edges,
    IsLeast {k | ∃ a, table[k]? = some a ∧ p ++ [e.pattern] <+: a.steps} e.rank
  terminal : ∀ p i, t.Spells p i → ((t.node i).isTerminal ↔ ∃ e ∈ table, e.steps = p)
  leaf : ∀ i, (t.node i).isTerminal → (t.node i).edges = []

/-! ## Prefix-free tables -/

theorem apart_comm {r s : List BytePattern} : Apart r s ↔ Apart s r := and_comm

theorem prefixFree_iff {table : List Encoding} : PrefixFree table ↔
    (∀ e ∈ table, e.steps ≠ []) ∧
      ∀ i j : Fin table.length, i ≠ j → ¬ table[i].steps <+: table[j].steps := by
  refine and_congr_right fun _ => ?_
  rw [List.pairwise_iff_getElem]
  constructor
  · intro h i j hij
    rcases Nat.lt_or_gt_of_ne (Fin.val_ne_of_ne hij) with hlt | hgt
    · exact (h i j i.isLt j.isLt hlt).1
    · exact (h j i j.isLt i.isLt hgt).2
  · intro h i j hi hj hlt
    have hne : (⟨i, hi⟩ : Fin table.length) ≠ ⟨j, hj⟩ := by
      simpa using Nat.ne_of_lt hlt
    exact ⟨h ⟨i, hi⟩ ⟨j, hj⟩ hne, h ⟨j, hj⟩ ⟨i, hi⟩ hne.symm⟩

theorem PrefixFree.perm {table table' : List Encoding} (h : PrefixFree table)
    (hp : table.Perm table') : PrefixFree table' :=
  ⟨fun e he => h.1 e (hp.mem_iff.mpr he), hp.pairwise h.2 apart_comm.mp⟩

theorem PrefixFree.eq_of_prefix {table : List Encoding} (h : PrefixFree table) {a b : Encoding}
    (ha : a ∈ table) (hb : b ∈ table) (hp : a.steps <+: b.steps) : a = b := by
  obtain ⟨i, hi, rfl⟩ := List.getElem_of_mem ha
  obtain ⟨j, hj, rfl⟩ := List.getElem_of_mem hb
  by_cases hij : (⟨i, hi⟩ : Fin table.length) = ⟨j, hj⟩
  · obtain rfl : i = j := by simpa using hij
    rfl
  · exact absurd hp ((prefixFree_iff.mp h).2 _ _ hij)

namespace Trie

/-! ## Edges lead on -/

/-- There is a root, and edges lead to later nodes. -/
structure Forward (t : Trie) : Prop where
  root_lt : Trie.root < t.nodes.size
  edge : ∀ i, ∀ e ∈ (t.node i).edges, i < e.child ∧ e.child < t.nodes.size

section Forward

variable {t t' : Trie} {i : Nat} {name : String} {rank : Nat}

theorem forward_empty : empty.Forward where
  root_lt := by decide
  edge i e he := by
    rcases i with _ | i
    · cases he
    · rw [node_eq_default (by simp [empty])] at he
      cases he

theorem Forward.addChild (h : t.Forward) (hi : i < t.nodes.size) (q : BytePattern) (rank : Nat) :
    (t.addChild i q rank).Forward where
  root_lt := by rw [size_addChild]; exact Nat.lt_succ_of_lt h.root_lt
  edge j e he := by
    rw [size_addChild]
    by_cases hji : j = i
    · subst hji
      rw [node_addChild_self hi] at he
      rcases List.mem_append.mp he with he | he
      · have := h.edge j e he
        omega
      · rw [List.mem_singleton.mp he]
        exact ⟨hi, Nat.lt_succ_self _⟩
    · rw [node_addChild_of_ne hji] at he
      have := h.edge j e he
      omega

theorem Forward.close (h : t.Forward) (i : Nat) (name : String) : (t.close i name).Forward where
  root_lt := by rw [size_close]; exact h.root_lt
  edge j e he := by
    rw [edges_close] at he
    rw [size_close]
    exact h.edge j e he

theorem Forward.finish (h : t.Forward) (ht : t.finish name i = .ok t') : t'.Forward := by
  unfold Trie.finish at ht
  split at ht
  · cases ht
  · cases ht
  · cases ht
    exact h.close i name

theorem Forward.insertBelow (ps : List BytePattern) : ∀ {t : Trie} {i : Nat}, t.Forward →
    i < t.nodes.size → insertBelow name rank ps i t = .ok t' → t'.Forward := by
  induction ps with
  | nil => exact fun h _ ht => h.finish ht
  | cons q ps ih =>
    intro t i h hi ht
    rcases hend : (t.node i).ending with _ | other
    · rcases hf : (t.node i).edges.find? fun e => e.pattern = q with _ | e
      · rw [insertBelow_of_new hend hf] at ht
        exact ih (h.addChild hi q rank) (by rw [size_addChild]; omega) ht
      · rw [insertBelow_of_edge hend hf] at ht
        exact ih h (h.edge i e (List.mem_of_find?_eq_some hf)).2 ht
    · rw [insertBelow_of_ending hend] at ht
      cases ht

theorem Forward.insertAll (es : List Encoding) : ∀ {t : Trie} {rank : Nat}, t.Forward →
    insertAll rank es t = .ok t' → t'.Forward := by
  induction es with
  | nil =>
    intro t rank h ht
    cases ht
    exact h
  | cons e es ih =>
    intro t rank h ht
    rw [Trie.insertAll] at ht
    rcases hins : t.insert rank e with err | t₁
    · rw [hins] at ht
      cases ht
    · rw [hins] at ht
      unfold insert at hins
      split_ifs at hins
      exact ih (h.insertBelow _ h.root_lt hins) ht

theorem forward_of_build {table : List Encoding} (h : build table = .ok t) : t.Forward :=
  forward_empty.insertAll table (by rwa [build_eq_insertAll] at h)

end Forward

/-! ## Labels are ways -/

section Labels

variable {t : Trie} {labels rows : List (List BytePattern)} {table : List Encoding} {i : Nat}
  {p : List BytePattern}

theorem Labelled.label_of_spells {first : List BytePattern → Option Nat}
    (hl : t.Labelled labels first) (h : t.Spells p i) : labels[i]? = some p := by
  induction h with
  | root => exact hl.root
  | edge _ he ih => exact (hl.node _ _ ih).child _ he

theorem Labelled.exists_spells (hl : t.Labelled labels (firstWith rows)) (p : List BytePattern)
    {k : Nat} (hk : firstWith rows p = some k) : ∃ i, t.Spells p i := by
  induction p using List.reverseRecOn generalizing k with
  | nil => exact ⟨Trie.root, .root⟩
  | append_singleton p q ih =>
    obtain ⟨j, hj⟩ := exists_firstWith_of_concat hk
    obtain ⟨i, hi⟩ := ih hj
    obtain ⟨e, he, rfl⟩ := (hl.node i p (hl.label_of_spells hi)).edge q k hk
    exact ⟨e.child, hi.edge he⟩

/-- **The way to a node is its label.** -/
theorem Labelled.spells_iff (hl : t.Labelled labels (firstWith rows)) :
    t.Spells p i ↔ labels[i]? = some p := by
  refine ⟨hl.label_of_spells, fun hi => ?_⟩
  obtain ⟨j, hj⟩ : ∃ j, t.Spells p j := by
    rcases hl.begun p (List.mem_of_getElem? hi) with rfl | ⟨k, hk⟩
    · exact ⟨Trie.root, .root⟩
    · exact hl.exists_spells p hk
  rw [← hl.eq_of_label hi (hl.label_of_spells hj)]
  exact hj

theorem Labelled.mem_iff (hl : t.Labelled labels (firstWith rows)) (hp : p ≠ []) :
    p ∈ labels ↔ ∃ r ∈ rows, p <+: r := by
  constructor
  · intro hm
    obtain ⟨k, hk⟩ := (hl.begun p hm).resolve_left hp
    exact exists_row_of_firstWith hk
  · rintro ⟨r, hr, hpr⟩
    obtain ⟨k, hk⟩ := exists_firstWith hr hpr
    obtain ⟨i, hi⟩ := hl.exists_spells p hk
    exact List.mem_of_getElem? (hl.label_of_spells hi)

theorem Labelled.exists_label {first : List BytePattern → Option Nat} (hl : t.Labelled labels first)
    (hi : i < t.nodes.size) : ∃ p, labels[i]? = some p :=
  ⟨_, List.getElem?_eq_getElem (hl.size_eq ▸ hi)⟩

theorem Labelled.exists_label_of_edge {first : List BytePattern → Option Nat}
    (hl : t.Labelled labels first) {e : Edge} (he : e ∈ (t.node i).edges) :
    ∃ p, labels[i]? = some p := by
  refine hl.exists_label (Nat.lt_of_not_le fun hle => ?_)
  rw [node_eq_default hle] at he
  cases he

theorem Labelled.nodeCount_eq (hl : t.Labelled labels (firstWith (table.map (·.steps)))) :
    t.nodeCount = 1 + (beginnings table).card := by
  have hnil : [] ∈ labels.toFinset := List.mem_toFinset.mpr (List.mem_of_getElem? hl.root)
  have herase : labels.toFinset.erase [] = beginnings table := by
    ext p
    rw [Finset.mem_erase, List.mem_toFinset, mem_beginnings]
    refine and_congr_right fun hp => ?_
    rw [hl.mem_iff hp]
    simp
  rw [← herase, Nat.add_comm, Finset.card_erase_add_one hnil,
    List.toFinset_card_of_nodup hl.nodup]
  exact hl.size_eq

theorem Labelled.edge_unique {first : List BytePattern → Option Nat} (hl : t.Labelled labels first)
    {i' : Nat} {e e' : Edge} (he : e ∈ (t.node i).edges) (he' : e' ∈ (t.node i').edges)
    (hc : e'.child = e.child) : i' = i ∧ e' = e := by
  obtain ⟨p, hi⟩ := hl.exists_label_of_edge he
  obtain ⟨p', hi'⟩ := hl.exists_label_of_edge he'
  have hn := hl.node i p hi
  have hn' := hl.node i' p' hi'
  have hlabel : p' ++ [e'.pattern] = p ++ [e.pattern] := by
    have := (hn'.child e' he').symm.trans (hc ▸ hn.child e he)
    exact Option.some.inj this
  obtain ⟨rfl, hq⟩ := List.append_inj' hlabel rfl
  have hrank : e'.rank = e.rank := by
    have hr := hn'.rank e' he'
    rw [hlabel, hn.rank e he] at hr
    exact (Option.some.inj hr).symm
  refine ⟨hl.eq_of_label hi hi', ?_⟩
  cases e
  cases e'
  obtain rfl := List.singleton_inj.mp hq
  simp_all

theorem Labelled.ascending {first : List BytePattern → Option Nat} (hl : t.Labelled labels first)
    (i : Nat) : (t.node i).edges.Pairwise fun a b => a.rank < b.rank := by
  by_cases hi : i < t.nodes.size
  · obtain ⟨p, hp⟩ := hl.exists_label hi
    exact (hl.node i p hp).ascending
  · rw [node_eq_default (Nat.le_of_not_lt hi)]
    exact List.Pairwise.nil

theorem Labelled.distinct {first : List BytePattern → Option Nat} (hl : t.Labelled labels first)
    (i : Nat) : ((t.node i).edges.map (·.pattern)).Nodup := by
  rw [List.Nodup, List.pairwise_map]
  refine (hl.ascending i).imp_of_mem fun ha hb hlt hab => ?_
  obtain ⟨p, hi⟩ := hl.exists_label_of_edge ha
  have hn := hl.node i p hi
  have hr := hn.rank _ ha
  rw [hab, hn.rank _ hb] at hr
  exact absurd (Option.some.inj hr) (Nat.ne_of_gt hlt)

theorem isLeast_firstWith {k : Nat} (h : firstWith (table.map (·.steps)) p = some k) :
    IsLeast {k | ∃ a, table[k]? = some a ∧ p <+: a.steps} k := by
  constructor
  · obtain ⟨r, hr, hp⟩ := getElem?_firstWith h
    rw [List.getElem?_map, Option.map_eq_some_iff] at hr
    obtain ⟨a, ha, rfl⟩ := hr
    exact ⟨a, ha, hp⟩
  · rintro j ⟨a, ha, hp⟩
    exact firstWith_le h (by rw [List.getElem?_map, ha]; rfl) hp

theorem EndsAt.leaf (he : t.EndsAt labels table)
    (hl : t.Labelled labels (firstWith (table.map (·.steps)))) (hp : PrefixFree table)
    (hterm : (t.node i).isTerminal) : (t.node i).edges = [] := by
  refine List.eq_nil_iff_forall_not_mem.mpr fun e hmem => ?_
  obtain ⟨p, hi⟩ := hl.exists_label_of_edge hmem
  obtain ⟨name, hname⟩ := Option.isSome_iff_exists.mp hterm
  have ha := (he i p hi name).mp hname
  obtain ⟨r, hr, hpr⟩ := exists_row_of_firstWith ((hl.node i p hi).rank e hmem)
  obtain ⟨b, hb, rfl⟩ := List.mem_map.mp hr
  -- the encoding that ends here would begin the one that goes on
  obtain rfl : ⟨name, p⟩ = b := hp.eq_of_prefix ha hb ((List.prefix_append p _).trans hpr)
  exact concat_not_begins p e.pattern hpr

end Labels

/-! ## Tables and their tries -/

theorem faithful_of_build {table : List Encoding} {t : Trie} (h : build table = .ok t) :
    t.Faithful table := by
  obtain ⟨labels, hl, he⟩ := represents_of_build h
  have hf := forward_of_build h
  have hp := build_ok_iff.mp ⟨t, h⟩
  exact
    { nodeCount_eq := hl.nodeCount_eq
      parent := by
        intro j hj hlt
        obtain ⟨p, hlabel⟩ := hl.exists_label hlt
        rcases hl.spells_iff.mpr hlabel with _ | @⟨p, i, e, -, he⟩
        · exact absurd rfl hj
        · refine ⟨(i, e), ⟨he, rfl⟩, fun a ha => ?_⟩
          obtain ⟨hi', he'⟩ := hl.edge_unique he ha.1 ha.2
          exact Prod.ext hi' he'
      forward := hf.edge
      way := by
        intro i hi
        obtain ⟨p, hlabel⟩ := hl.exists_label hi
        refine ⟨p, hl.spells_iff.mpr hlabel, fun p' hp' => ?_⟩
        exact Option.some.inj ((hl.spells_iff.mp hp').symm.trans hlabel)
      distinct := hl.distinct
      ascending := hl.ascending
      rank := fun p i hi e hmem =>
        isLeast_firstWith ((hl.node i p (hl.spells_iff.mp hi)).rank e hmem)
      terminal := by
        intro p i hi
        rw [he.isTerminal_iff (hl.spells_iff.mp hi), mem_remaining, List.append_nil]
      leaf := fun i => he.leaf hl hp }

/-- **Exactly the prefix-free tables have a trie**, whatever the order of their encodings, and it is
faithful. -/
theorem build_faithful (table : List Encoding) :
    ((∃ err, build table = .error err) ↔
      (∃ e ∈ table, e.steps = []) ∨
        ∃ i j : Fin table.length, i ≠ j ∧ table[i].steps <+: table[j].steps) ∧
    (∀ table', table.Perm table' → ((∃ t, build table = .ok t) ↔ ∃ t, build table' = .ok t)) ∧
    ∀ t, build table = .ok t → t.Faithful table := by
  refine ⟨?_, fun table' hperm => ?_, fun t => faithful_of_build⟩
  · rw [build_error_iff, prefixFree_iff, Classical.not_and_iff_not_or_not]
    simp only [not_forall, not_not, exists_prop, ne_eq]
  · rw [build_ok_iff, build_ok_iff]
    exact ⟨fun h => h.perm hperm, fun h => h.perm hperm.symm⟩

/-- The five forms behind a first byte share its node: fifteen steps make twelve nodes. -/
theorem build_faithful_family :
    let table := Encoding.family "reg_rm" .regRmHead .modRegRm []
    ∃ t, build table = .ok t ∧ t.Faithful table ∧ t.nodeCount = 12 := by
  intro table
  obtain ⟨t, ht⟩ : ∃ t, build table = .ok t := ⟨_, rfl⟩
  have hf := (build_faithful table).2.2 t ht
  refine ⟨t, ht, hf, ?_⟩
  rw [hf.nodeCount_eq]
  decide

end Trie

end Micro8086
