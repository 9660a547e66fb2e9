import Micro8086.Proofs.Trie.Scan
import Micro8086.Proofs.Trie.Shadowed

/-!
# Tables that decode alike

What a table decodes hangs on two things: which sequences of patterns are encodings, and which of the
patterns that go on behind those followed so far comes first for a byte. Tables that agree on both
wherever a scan can come decode alike.

* `nextPattern?_eq_some_iff`: the pattern for a byte, by the ranks of first rows;
* `scan_congr`: tables that agree wherever a scan comes;
* `Precedes`: the order of two patterns behind a common beginning;
* **`Trie.decode_perm`**: only the order of overlapping patterns matters;
* **`Trie.decode_erase_dead`**: an encoding behind a reported edge can be left out.
-/

namespace Micro8086

/-! ## The pattern for a byte -/

section Scan

variable {table table' : List Encoding} {code : Array UInt8} {offset : Nat} {f : Fields}
  {p : List BytePattern} {q : BytePattern} {b : UInt8} {j k : Nat} {e : Encoding}

theorem getElem?_of_firstWith (h : firstWith (table.map (·.steps)) (p ++ [q]) = some k) :
    ∃ e, table[k]? = some e ∧ e.next? p = some q := by
  obtain ⟨r, hr, hp⟩ := getElem?_firstWith h
  rw [List.getElem?_map, Option.map_eq_some_iff] at hr
  obtain ⟨e, he, rfl⟩ := hr
  exact ⟨e, he, Encoding.next?_eq_some_iff.mpr hp⟩

theorem exists_firstWith_le (he : table[j]? = some e) (hq : e.next? p = some q) :
    ∃ k ≤ j, firstWith (table.map (·.steps)) (p ++ [q]) = some k := by
  have hp := Encoding.next?_eq_some_iff.mp hq
  obtain ⟨k, hk⟩ := exists_firstWith (List.mem_map_of_mem (List.mem_of_getElem? he)) hp
  exact ⟨k, firstWith_le hk (by rw [List.getElem?_map, he]; rfl) hp, hk⟩

/-- **The pattern for a byte** is the one of lowest rank that accepts it. -/
theorem nextPattern?_eq_some_iff : nextPattern? table p b = some q ↔
    q.accepts b ∧ ∃ k, firstWith (table.map (·.steps)) (p ++ [q]) = some k ∧
      ∀ q' j, q'.accepts b → firstWith (table.map (·.steps)) (p ++ [q']) = some j → k ≤ j := by
  rw [nextPattern?, List.findSome?_eq_some_iff]
  constructor
  · rintro ⟨as, e, bs, rfl, he, has⟩
    rw [Option.filter_eq_some_iff] at he
    have hplace : (as ++ e :: bs)[as.length]? = some e := by simp
    obtain ⟨k, hk, hfirst⟩ := exists_firstWith_le hplace he.1
    refine ⟨he.2, k, hfirst, fun q' j hacc hj => Nat.le_of_not_lt fun hlt => ?_⟩
    -- the encodings in front have no pattern for the byte
    obtain ⟨d, hd, hq'⟩ := getElem?_of_firstWith hj
    rw [List.getElem?_append_left (by omega)] at hd
    have hnone := has d (List.mem_of_getElem? hd)
    rw [hq', Option.filter_eq_none_iff] at hnone
    exact hnone q' rfl hacc
  · rintro ⟨hacc, k, hk, hmin⟩
    obtain ⟨e, he, hq⟩ := getElem?_of_firstWith hk
    obtain ⟨hlt, rfl⟩ := List.getElem?_eq_some_iff.mp he
    refine ⟨table.take k, table[k], table.drop (k + 1), ?_, ?_, fun d hd => ?_⟩
    · rw [List.getElem_cons_drop, List.take_append_drop]
    · rw [hq]
      exact Option.filter_some_pos hacc
    · rw [Option.filter_eq_none_iff]
      intro q' hq' hacc'
      obtain ⟨j, hj, rfl⟩ := List.mem_take_iff_getElem.mp hd
      obtain ⟨i, hi, hfirst⟩ := exists_firstWith_le (List.getElem?_eq_getElem (by omega)) hq'
      have := hmin q' i hacc' hfirst
      omega

/-- **Tables that agree wherever a scan comes** give the same scan. The predicate `I` says where it can
come. -/
theorem scan_congr {I : List BytePattern → Prop}
    (hmem : ∀ p, I p → (p ∈ table.map (·.steps) ↔ p ∈ table'.map (·.steps)))
    (hnext : ∀ p b, I p → nextPattern? table p b = nextPattern? table' p b)
    (hstep : ∀ p b q, I p → nextPattern? table p b = some q → I (p ++ [q])) (hp : I p) :
    scan table code p offset f = scan table' code p offset f := by
  fun_induction scan table code p offset f with
  | case1 p offset f hm => rw [scan_of_mem ((hmem p hp).mp hm)]
  | case2 p offset f hm ho hn =>
    rw [scan_of_none (fun h => hm ((hmem p hp).mpr h)) ho ((hnext p _ hp).symm.trans hn)]
  | case3 p offset f hm ho q hq ih =>
    rw [scan_of_some (fun h => hm ((hmem p hp).mpr h)) ho ((hnext p _ hp).symm.trans hq)]
    exact ih (hstep p _ q hp hq)
  | case4 p offset f hm ho =>
    rw [scan_of_le (fun h => hm ((hmem p hp).mpr h)) (Nat.le_of_not_lt ho)]

end Scan

theorem Trie.decode_of_build {table : List Encoding} {t : Trie} (h : build table = .ok t)
    (code : Array UInt8) (offset : Nat) (f : Fields) :
    t.decode code offset f = .ok (scan table code [] offset f).decoded := by
  obtain ⟨labels, hl, he⟩ := represents_of_build h
  rw [decode, if_neg (by omega), ← fst_walkTo, (hl.walkTo_eq he code offset root [] f hl.root).1]

/-! ## The order of encodings -/

/-- There is a byte that both patterns accept. -/
def BytePattern.Overlaps (a b : BytePattern) : Prop := ∃ byte, a.accepts byte ∧ b.accepts byte

/-- An encoding goes on behind the patterns `p` with `q`. -/
def GoesOn (table : List Encoding) (p : List BytePattern) (q : BytePattern) : Prop :=
  ∃ e ∈ table, p ++ [q] <+: e.steps

/-- Behind the patterns `p`, the first encoding that goes on with `a` stands before the first one that
goes on with `b`. -/
def Precedes (table : List Encoding) (p : List BytePattern) (a b : BytePattern) : Prop :=
  ∃ j k, firstWith (table.map (·.steps)) (p ++ [a]) = some j ∧
    firstWith (table.map (·.steps)) (p ++ [b]) = some k ∧ j < k

/-- Overlapping patterns with which the first table goes on stand in the same order in both tables. -/
def SameOrder (table table' : List Encoding) : Prop :=
  ∀ p a b, a ≠ b → GoesOn table p a → GoesOn table p b → a.Overlaps b →
    (Precedes table p a b ↔ Precedes table' p a b)

section Order

variable {table table' : List Encoding} {p : List BytePattern} {q : BytePattern} {b : UInt8}

theorem goesOn_of_firstWith {k : Nat} (h : firstWith (table.map (·.steps)) (p ++ [q]) = some k) :
    GoesOn table p q := by
  obtain ⟨e, he, hq⟩ := getElem?_of_firstWith h
  exact ⟨e, List.mem_of_getElem? he, Encoding.next?_eq_some_iff.mp hq⟩

theorem GoesOn.exists_firstWith (h : GoesOn table p q) :
    ∃ k, firstWith (table.map (·.steps)) (p ++ [q]) = some k := by
  obtain ⟨e, he, hp⟩ := h
  exact Micro8086.exists_firstWith (List.mem_map_of_mem he) hp

theorem GoesOn.perm (hp : table.Perm table') (h : GoesOn table p q) : GoesOn table' p q := by
  obtain ⟨e, he, hq⟩ := h
  exact ⟨e, hp.mem_iff.mp he, hq⟩

theorem SameOrder.symm (hp : table.Perm table') (h : SameOrder table table') :
    SameOrder table' table :=
  fun p a b hne ha hb hover => (h p a b hne (ha.perm hp.symm) (hb.perm hp.symm) hover).symm

theorem precedes_of_le {a b : BytePattern} {j k : Nat} (hne : a ≠ b)
    (ha : firstWith (table.map (·.steps)) (p ++ [a]) = some j)
    (hb : firstWith (table.map (·.steps)) (p ++ [b]) = some k) (hle : j ≤ k) :
    Precedes table p a b := by
  refine ⟨j, k, ha, hb, Nat.lt_of_le_of_ne hle ?_⟩
  rintro rfl
  obtain ⟨e, he, hnext⟩ := getElem?_of_firstWith ha
  obtain ⟨e', he', hnext'⟩ := getElem?_of_firstWith hb
  obtain rfl : e = e' := Option.some.inj (he.symm.trans he')
  exact hne (Option.some.inj (hnext.symm.trans hnext'))

theorem nextPattern?_perm (hp : table.Perm table') (ho : SameOrder table table')
    (h : nextPattern? table p b = some q) : nextPattern? table' p b = some q := by
  rw [nextPattern?_eq_some_iff] at h ⊢
  obtain ⟨hacc, k, hk, hmin⟩ := h
  obtain ⟨k', hk'⟩ := ((goesOn_of_firstWith hk).perm hp).exists_firstWith
  refine ⟨hacc, k', hk', fun q' j' hacc' hj' => ?_⟩
  by_cases hne : q = q'
  · subst hne
    exact Nat.le_of_eq (Option.some.inj (hk'.symm.trans hj'))
  · have hq' := (goesOn_of_firstWith hj').perm hp.symm
    obtain ⟨j, hj⟩ := hq'.exists_firstWith
    have hprec := precedes_of_le hne hk hj (hmin q' j hacc' hj)
    rw [ho p q q' hne (goesOn_of_firstWith hk) hq' ⟨b, hacc, hacc'⟩] at hprec
    obtain ⟨i, i', hi, hi', hlt⟩ := hprec
    rw [hk'] at hi
    rw [hj'] at hi'
    cases hi
    cases hi'
    exact Nat.le_of_lt hlt

end Order

section Decidable

variable {table table' : List Encoding} {p : List BytePattern}

instance (a b : BytePattern) : Decidable (a.Overlaps b) :=
  decidable_of_iff (∃ byte ∈ allBytes, a.accepts byte ∧ b.accepts byte)
    ⟨fun ⟨byte, _, h⟩ => ⟨byte, h⟩, fun ⟨byte, h⟩ => ⟨byte, mem_allBytes byte, h⟩⟩

instance (a b : BytePattern) : Decidable (Precedes table p a b) :=
  decidable_of_iff
    (∃ j ∈ firstWith (table.map (·.steps)) (p ++ [a]),
      ∃ k ∈ firstWith (table.map (·.steps)) (p ++ [b]), j < k)
    ⟨fun ⟨j, hj, k, hk, h⟩ => ⟨j, k, hj, hk, h⟩, fun ⟨j, k, hj, hk, h⟩ => ⟨j, hj, k, hk, h⟩⟩

theorem sameOrder_iff : SameOrder table table' ↔
    ∀ d ∈ table, ∀ p ∈ d.steps.inits, ∀ a ∈ d.next? p, ∀ e ∈ table, ∀ b ∈ e.next? p,
      a ≠ b → a.Overlaps b → (Precedes table p a b ↔ Precedes table' p a b) := by
  constructor
  · intro h d hd p _ a ha e he b hb hne hover
    exact h p a b hne ⟨d, hd, Encoding.next?_eq_some_iff.mp ha⟩
      ⟨e, he, Encoding.next?_eq_some_iff.mp hb⟩ hover
  · rintro h p a b hne ⟨d, hd, ha⟩ ⟨e, he, hb⟩ hover
    have hp : p ∈ d.steps.inits := (List.mem_inits p d.steps).mpr ((List.prefix_append p [a]).trans ha)
    exact h d hd p hp a (Encoding.next?_eq_some_iff.mpr ha) e he b
      (Encoding.next?_eq_some_iff.mpr hb) hne hover

instance : Decidable (SameOrder table table') := decidable_of_iff _ sameOrder_iff.symm

end Decidable

/-- **Only the order of overlapping patterns matters.** Tables with the same encodings, in which
patterns that accept a common byte and go on behind the same ones stand in the same order, decode
alike. -/
theorem Trie.decode_perm {table table' : List Encoding} {t t' : Trie} (h : build table = .ok t)
    (h' : build table' = .ok t') (hp : table.Perm table') (ho : SameOrder table table')
    (code : Array UInt8) (offset : Nat) (f : Fields) :
    t.decode code offset f = t'.decode code offset f := by
  have hnext : ∀ p b, nextPattern? table p b = nextPattern? table' p b := fun p b =>
    Option.ext fun q => ⟨nextPattern?_perm hp ho, nextPattern?_perm hp.symm (ho.symm hp)⟩
  have hmem : ∀ p, p ∈ table.map (·.steps) ↔ p ∈ table'.map (·.steps) := fun p =>
    (hp.map _).mem_iff
  rw [decode_of_build h, decode_of_build h',
    scan_congr (I := fun _ => True) (fun p _ => hmem p) (fun p b _ => hnext p b)
      (fun _ _ _ _ _ => trivial) trivial]

/-- A direct address keeps its place before plain memory, and `jnz` before `jne`. -/
theorem Trie.decode_perm_overlap :
    let table : List Encoding :=
      [⟨"direct", [.regRmHead, .modRegRm .direct, .dispLo, .dispHi]⟩,
        ⟨"memory", [.regRmHead, .modRegRm .memory]⟩,
        ⟨"jnz", [.jump .jnz, .dispLo]⟩, ⟨"jne", [.jump .jne, .dispLo]⟩]
    let table' : List Encoding :=
      [⟨"jnz", [.jump .jnz, .dispLo]⟩,
        ⟨"direct", [.regRmHead, .modRegRm .direct, .dispLo, .dispHi]⟩,
        ⟨"jne", [.jump .jne, .dispLo]⟩, ⟨"memory", [.regRmHead, .modRegRm .memory]⟩]
    table.Perm table' ∧ SameOrder table table' ∧
    ∃ t t', build table = .ok t ∧ build table' = .ok t' ∧
      ∀ (code : Array UInt8) (offset : Nat) (f : Fields),
        t.decode code offset f = t'.decode code offset f := by
  intro table table'
  have hp : table.Perm table' := by decide
  have ho : SameOrder table table' := by decide +kernel
  obtain ⟨t, ht⟩ : ∃ t, build table = .ok t := ⟨_, rfl⟩
  obtain ⟨t', ht'⟩ : ∃ t', build table' = .ok t' := ⟨_, rfl⟩
  exact ⟨hp, ho, t, t', ht, ht', decode_perm ht ht' hp ho⟩

/-! ## Encodings that are never found -/

/-- Behind the patterns `p`, earlier encodings take every byte that `q` accepts. -/
def Dead (table : List Encoding) (p : List BytePattern) (q : BytePattern) : Prop :=
  ∃ k, firstWith (table.map (·.steps)) (p ++ [q]) = some k ∧
    ∀ b, q.accepts b → ∃ d j, d.accepts b ∧
      firstWith (table.map (·.steps)) (p ++ [d]) = some j ∧ j < k

section Dead

variable {table as bs : List Encoding} {e : Encoding} {p p₀ : List BytePattern}
  {q q₀ : BytePattern} {b : UInt8}

theorem Dead.nextPattern?_ne (h : Dead table p q) (b : UInt8) : nextPattern? table p b ≠ some q := by
  intro hq
  obtain ⟨hacc, k', hk', hmin⟩ := nextPattern?_eq_some_iff.mp hq
  obtain ⟨k, hk, hearlier⟩ := h
  obtain rfl : k' = k := Option.some.inj (hk'.symm.trans hk)
  obtain ⟨d, j, hd, hj, hlt⟩ := hearlier b hacc
  exact absurd (hmin d j hd hj) (Nat.not_le.mpr hlt)

theorem Dead.exists_earlier (h : Dead (as ++ e :: bs) p q) (he : p ++ [q] <+: e.steps)
    (hb : q.accepts b) : ∃ a ∈ as, ∃ d, a.next? p = some d ∧ d.accepts b := by
  obtain ⟨k, hk, hearlier⟩ := h
  obtain ⟨d, j, hd, hj, hlt⟩ := hearlier b hb
  have hplace : (as ++ e :: bs)[as.length]? = some e := by simp
  have hle : k ≤ as.length := firstWith_le hk (by rw [List.getElem?_map, hplace]; rfl) he
  obtain ⟨a, ha, hnext⟩ := getElem?_of_firstWith hj
  rw [List.getElem?_append_left (by omega)] at ha
  exact ⟨a, List.mem_of_getElem? ha, d, hnext, hd⟩

theorem Dead.exists_earlier_of_next (h : Dead (as ++ e :: bs) p₀ q₀) (he : p₀ ++ [q₀] <+: e.steps)
    (hp : ¬ p₀ ++ [q₀] <+: p) (hq : e.next? p = some q) (hb : q.accepts b) :
    ∃ a ∈ as, ∃ d, a.next? p = some d ∧ d.accepts b := by
  have hpq := Encoding.next?_eq_some_iff.mp hq
  by_cases heq : p ++ [q] = p₀ ++ [q₀]
  · obtain ⟨rfl, hsingle⟩ := List.append_inj' heq rfl
    obtain rfl := List.singleton_inj.mp hsingle
    exact h.exists_earlier he hb
  · rcases List.prefix_or_prefix_of_prefix hpq he with hle | hle
    · -- an earlier encoding that comes as far as the dead pattern goes on with the same one here
      have hle : p ++ [q] <+: p₀ := (List.prefix_concat_iff.mp hle).resolve_left heq
      obtain ⟨b₀, hb₀⟩ := q₀.exists_accepts
      obtain ⟨a, ha, d, hd, -⟩ := h.exists_earlier he hb₀
      have hfar := (List.prefix_append p₀ [d]).trans (Encoding.next?_eq_some_iff.mp hd)
      exact ⟨a, ha, q, Encoding.next?_eq_some_iff.mpr (hle.trans hfar), hb⟩
    · exact absurd ((List.prefix_concat_iff.mp hle).resolve_left (Ne.symm heq)) hp

/-- Without an encoding that has a dead pattern, the pattern for a byte is the same wherever the dead
one has not been followed. -/
theorem Dead.nextPattern?_eq (h : Dead (as ++ e :: bs) p₀ q₀) (he : p₀ ++ [q₀] <+: e.steps)
    (hp : ¬ p₀ ++ [q₀] <+: p) (b : UInt8) :
    nextPattern? (as ++ e :: bs) p b = nextPattern? (as ++ bs) p b := by
  rw [nextPattern?, nextPattern?, List.findSome?_append, List.findSome?_append]
  rcases has : as.findSome? fun a => (a.next? p).filter fun q => q.accepts b with _ | q'
  · have hnone : (e.next? p).filter (fun q => q.accepts b) = none := by
      rw [Option.filter_eq_none_iff]
      intro q hq hacc
      obtain ⟨a, ha, d, hd, hb⟩ := h.exists_earlier_of_next he hp hq hacc
      have := List.findSome?_eq_none_iff.mp has a ha
      rw [hd, Option.filter_eq_none_iff] at this
      exact this d rfl hb
    rw [List.findSome?_cons, hnone]
  · rw [has, Option.some_or, Option.some_or]

/-- **An encoding with a dead pattern can be left out.** -/
theorem Dead.scan_eq (h : Dead (as ++ e :: bs) p₀ q₀) (he : p₀ ++ [q₀] <+: e.steps)
    (code : Array UInt8) (offset : Nat) (f : Fields) :
    scan (as ++ bs) code [] offset f = scan (as ++ e :: bs) code [] offset f := by
  refine (scan_congr (I := fun p => ¬ p₀ ++ [q₀] <+: p) (fun p hp => ?_)
    (fun p b hp => h.nextPattern?_eq he hp b) (fun p b q hp hq hle => ?_) ?_).symm
  · have hne : p ≠ e.steps := fun heq => hp (heq ▸ he)
    simp [hne]
  · -- the dead pattern is not the one for the byte
    rcases List.prefix_concat_iff.mp hle with heq | hle
    · obtain ⟨rfl, hsingle⟩ := List.append_inj' heq rfl
      obtain rfl := List.singleton_inj.mp hsingle
      exact h.nextPattern?_ne b hq
    · exact hp hle
  · simp

end Dead

namespace Trie

variable {table : List Encoding} {t : Trie} {i j : Nat} {a : Nat × Edge} {w : List (Nat × Edge)}

theorem Way.exists_split (h : t.Way i w j) (ha : a ∈ w) :
    ∃ w₁ w₂, w = w₁ ++ a :: w₂ ∧ t.Way i w₁ a.1 ∧ a.2 ∈ (t.node a.1).edges := by
  induction h with
  | stay => cases ha
  | @go i j e w he _ ih =>
    rcases List.mem_cons.mp ha with rfl | ha
    · exact ⟨[], w, rfl, .stay i, he⟩
    · obtain ⟨w₁, w₂, rfl, hw, hmem⟩ := ih ha
      exact ⟨(i, e) :: w₁, w₂, rfl, .go he hw, hmem⟩

/-- **The patterns of reported edges are the dead ones** behind the ways to them. -/
theorem reported_iff_dead (h : build table = .ok t) (hw : t.Way root w i) {d : Edge}
    (hd : d ∈ (t.node i).edges) : t.Reported i d ↔ Dead table (patterns w) d.pattern := by
  obtain ⟨labels, hl, -⟩ := represents_of_build h
  have hn := hl.node i (patterns w) (hl.label_of_spells (hw.spells .root))
  rw [(faithful_of_build h).reported_iff hd]
  constructor
  · intro hcovers
    refine ⟨d.rank, hn.rank d hd, fun b hb => ?_⟩
    obtain ⟨e, he, hlt, hacc⟩ := hcovers b hb
    exact ⟨e.pattern, e.rank, hacc, hn.rank e he, hlt⟩
  · rintro ⟨k, hk, hearlier⟩ b hb
    rw [hn.rank d hd, Option.some.injEq] at hk
    obtain ⟨q, j, hacc, hj, hlt⟩ := hearlier b hb
    obtain ⟨e, he, rfl⟩ := hn.edge q j hj
    rw [hn.rank e he, Option.some.injEq] at hj
    exact ⟨e, he, by omega, hacc⟩

theorem exists_way_of_mem (h : build table = .ok t) {e : Encoding} (he : e ∈ table) :
    ∃ w j, t.Way root w j ∧ patterns w = e.steps := by
  obtain ⟨labels, hl, -⟩ := represents_of_build h
  obtain ⟨k, hk⟩ := exists_firstWith (List.mem_map_of_mem he) (List.prefix_refl e.steps)
  obtain ⟨j, hj⟩ := hl.exists_spells e.steps hk
  obtain ⟨w, hw, hsteps⟩ := exists_way hj
  exact ⟨w, j, hw, hsteps⟩

/-- **An encoding behind a reported edge can be left out**: the table without it has a trie, which
decodes the same. -/
theorem decode_erase_dead (h : build table = .ok t) {e : Encoding} (he : e ∈ table)
    (hw : t.Way root w j) (hsteps : patterns w = e.steps)
    (hr : ∃ a ∈ w, t.Reported a.1 a.2) :
    ∃ t', build (table.erase e) = .ok t' ∧ ∀ (code : Array UInt8) (offset : Nat) (f : Fields),
      t'.decode code offset f = t.decode code offset f := by
  obtain ⟨a, ha, hreported⟩ := hr
  obtain ⟨w₁, w₂, rfl, hw₁, hmem⟩ := hw.exists_split ha
  have hdead := (reported_iff_dead h hw₁ hmem).mp hreported
  have hprefix : patterns w₁ ++ [a.2.pattern] <+: e.steps :=
    ⟨patterns w₂, by rw [← hsteps]; simp [patterns]⟩
  have hfree : PrefixFree (table.erase e) := by
    obtain ⟨hne, hapart⟩ := build_ok_iff.mp ⟨t, h⟩
    exact ⟨fun d hd => hne d (List.mem_of_mem_erase hd), hapart.sublist List.erase_sublist⟩
  obtain ⟨t', ht'⟩ := build_ok_iff.mpr hfree
  refine ⟨t', ht', fun code offset f => ?_⟩
  obtain ⟨as, bs, -, rfl, herase⟩ := List.exists_erase_eq he
  rw [decode_of_build ht', decode_of_build h, herase, hdead.scan_eq hprefix]

/-- `jnz` comes before `jne` and has the same byte: without the latter all is decoded as before. -/
theorem decode_erase_dead_jne :
    let e : Encoding := ⟨"jne", [.jump .jne, .dispLo]⟩
    (∃ w j, standard.Way root w j ∧ patterns w = e.steps ∧
      ∃ a ∈ w, standard.Reported a.1 a.2) ∧
    ∃ t', build (Encoding.table.erase e) = .ok t' ∧
      ∀ (code : Array UInt8) (offset : Nat) (f : Fields),
        t'.decode code offset f = standard.decode code offset f := by
  intro e
  have he : e ∈ Encoding.table := by decide
  obtain ⟨w, j, hw, hsteps⟩ := exists_way_of_mem build_table he
  have hdead : Dead Encoding.table [] (.jump .jne) :=
    ⟨_, rfl, fun b hb => ⟨.jump .jnz, _, hb, rfl, by decide⟩⟩
  have hr : ∃ a ∈ w, standard.Reported a.1 a.2 := by
    cases hw with
    | stay => cases hsteps
    | @go _ _ d w hd _ =>
      have hpattern : d.pattern = .jump .jne := (List.cons.inj hsteps).1
      refine ⟨(root, d), List.mem_cons_self, ?_⟩
      rw [reported_iff_dead build_table (.stay root) hd, hpattern]
      exact hdead
  exact ⟨⟨w, j, hw, hsteps, hr⟩, decode_erase_dead build_table he hw hsteps hr⟩

end Trie

end Micro8086
