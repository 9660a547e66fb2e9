import Mathlib.Data.FinEnum
import Micro8086.Proofs.Textbook.Agreement
import Micro8086.Proofs.Trie.Alike

/-!
# The first encoding that fits

A scan goes on byte by byte and takes nothing back, so it can miss an encoding that would have fitted.
It misses none where, whenever two encodings part over a byte that both ways accept, what is left of
the earlier one accepts any bytes. Then the scan follows the first encoding that fits as far as there
is code, and only the end of the code can come in between.

* `fits`, `mayFit`: patterns that accept the bytes from an offset on, all of them or as far as there
  is code;
* `Settled`: the tables in question; `settled_table`: that of the subset is one;
* `Settled.scan_eq`: a scan follows the first encoding that may fit;
* **`Trie.decode_first_fit`**: decoding with the trie of the subset needs no way back.
-/

namespace Micro8086

/-! ## Encodings that fit -/

/-- The patterns accept the bytes of the code from an offset on. -/
def fits (code : Array UInt8) : Nat → List BytePattern → Bool
  | _, [] => true
  | offset, p :: ps => code[offset]?.any p.accepts && fits code (offset + 1) ps

/-- The patterns accept the bytes of the code from an offset on, as far as there are any. -/
def mayFit (code : Array UInt8) : Nat → List BytePattern → Bool
  | _, [] => true
  | offset, p :: ps => code[offset]?.all p.accepts && mayFit code (offset + 1) ps

section Fits

variable {code : Array UInt8} {offset : Nat} {ps qs : List BytePattern}

theorem fits_iff :
    fits code offset ps ↔ mayFit code offset ps ∧ ps.length ≤ code.size - offset := by
  induction ps generalizing offset with
  | nil => simp [fits, mayFit]
  | cons p ps ih =>
    by_cases ho : offset < code.size
    · have hlen : ps.length ≤ code.size - (offset + 1) ↔ ps.length + 1 ≤ code.size - offset := by
        omega
      simp [fits, mayFit, ho, ih, hlen, and_assoc]
    · simp [fits, ho]
      omega

theorem accepts_of_mayFit {k : Nat} {p : BytePattern} {b : UInt8} (h : mayFit code offset ps)
    (hp : ps[k]? = some p) (hb : code[offset + k]? = some b) : p.accepts b := by
  induction ps generalizing offset k with
  | nil => simp at hp
  | cons q ps ih =>
    obtain ⟨hq, hrest⟩ : code[offset]?.all q.accepts ∧ mayFit code (offset + 1) ps := by
      simpa [mayFit] using h
    cases k with
    | zero => simp_all
    | succ k => exact ih hrest (by simpa using hp) (by rw [← hb, Nat.add_assoc, Nat.add_comm 1])

theorem mayFit_of_accepts (h : ∀ p ∈ ps, ∀ b, p.accepts b = true) : mayFit code offset ps := by
  induction ps generalizing offset with
  | nil => rfl
  | cons p ps ih =>
    simp [mayFit, Option.all_eq_true, h p, ih fun q hq => h q (List.mem_cons_of_mem _ hq)]

end Fits

/-! ## Settled tables -/

/-- What is left of two sequences of patterns behind their common beginning. -/
def part : List BytePattern → List BytePattern → List BytePattern × List BytePattern
  | p :: ps, q :: qs => if p = q then part ps qs else (p :: ps, q :: qs)
  | ps, qs => (ps, qs)

theorem part_append {q q' : BytePattern} (h : q ≠ q') (p r r' : List BytePattern) :
    part (p ++ q :: r) (p ++ q' :: r') = (q :: r, q' :: r') := by
  induction p with
  | nil => simp [part, h]
  | cons a p ih => simp [part, ih]

theorem Apart.exists_part {a b : List BytePattern} (h : Apart a b) :
    ∃ p q r q' r', a = p ++ q :: r ∧ b = p ++ q' :: r' ∧ part a b = (q :: r, q' :: r') := by
  induction a generalizing b with
  | nil => exact absurd b.nil_prefix h.1
  | cons q a ih =>
    rcases b with _ | ⟨q', b⟩
    · exact absurd (List.nil_prefix) h.2
    · by_cases hq : q = q'
      · subst hq
        have htail : Apart a b := by simpa [Apart, List.cons_prefix_cons] using h
        obtain ⟨p, c, r, c', r', ha, hb, hpart⟩ := ih htail
        exact ⟨q :: p, c, r, c', r', by simp [ha], by simp [hb], by simp [part, hpart]⟩
      · exact ⟨[], q, a, q', b, rfl, rfl, by simp [part, hq]⟩

/-- If the encodings part over a byte that both ways accept, the first one goes on with any bytes. -/
def Encoding.Yields (a b : Encoding) : Prop :=
  ∀ q r q' r', part a.steps b.steps = (q :: r, q' :: r') → q.Overlaps q' →
    ∀ x ∈ r, ∀ byte, x.accepts byte = true

/-- Each encoding of the table goes on with any bytes where a later one might go on too. -/
def Settled (table : List Encoding) : Prop := table.Pairwise fun a b => a.Yields b

section Scan

variable {table as bs : List Encoding} {g : Encoding} {code : Array UInt8} {offset : Nat} {f : Fields}
  {p r : List BytePattern} {q : BytePattern}

/-- An earlier encoding cannot take a byte in another way: with what is left of it, it would fit. -/
theorem Settled.eq_of_next? (hs : Settled (as ++ g :: bs)) (hg : g.steps = p ++ q :: r)
    (hno : ∀ a ∈ as, ∀ s, a.steps = p ++ s → ¬ mayFit code offset s) {b : UInt8}
    (hb : code[offset]? = some b) (hacc : q.accepts b) {a : Encoding} (ha : a ∈ as)
    {c : BytePattern} (hc : a.next? p = some c) (hacc' : c.accepts b) : c = q := by
  by_contra hne
  obtain ⟨s, hsteps⟩ := Encoding.next?_eq_some_iff.mp hc
  rw [List.append_assoc] at hsteps
  have hyields : a.Yields g := (List.pairwise_append.mp hs).2.2 a ha g List.mem_cons_self
  have hpart : part a.steps g.steps = (c :: s, q :: r) := by
    rw [← hsteps, hg]
    exact part_append hne p s r
  have hrest := hyields c s q r hpart ⟨b, hacc', hacc⟩
  apply hno a ha (c :: s) hsteps.symm
  simp [mayFit, hb, hacc', mayFit_of_accepts hrest]

theorem Settled.nextPattern?_eq (hs : Settled (as ++ g :: bs)) (hg : g.steps = p ++ q :: r)
    (hno : ∀ a ∈ as, ∀ s, a.steps = p ++ s → ¬ mayFit code offset s) {b : UInt8}
    (hb : code[offset]? = some b) (hacc : q.accepts b) :
    nextPattern? (as ++ g :: bs) p b = some q := by
  have hnext : g.next? p = some q := Encoding.next?_eq_some_iff.mpr ⟨r, by simp [hg]⟩
  have hq : (g.next? p).filter (fun q => q.accepts b) = some q := by simp [hnext, hacc]
  rcases hc : as.findSome? fun e => (e.next? p).filter fun q => q.accepts b with _ | c
  · simp [nextPattern?, List.findSome?_append, hc, hq]
  · obtain ⟨a, ha, hfilter⟩ := List.exists_of_findSome?_eq_some hc
    obtain ⟨hnext', hacc'⟩ := Option.filter_eq_some_iff.mp hfilter
    obtain rfl := hs.eq_of_next? hg hno hb hacc ha hnext' hacc'
    simp [nextPattern?, List.findSome?_append, hc]

/-- **A scan follows the first encoding that may fit**, up to its end or to that of the code. -/
theorem Settled.scan_eq (hs : Settled (as ++ g :: bs)) (hp : PrefixFree (as ++ g :: bs))
    (hg : g.steps = p ++ r) (hno : ∀ a ∈ as, ∀ s, a.steps = p ++ s → ¬ mayFit code offset s)
    (hfit : mayFit code offset r) :
    let s := scan (as ++ g :: bs) code p offset f
    if r.length ≤ code.size - offset then
      s.followed = g.steps ∧ s.decoded.result = .ok ↑(offset + r.length)
    else
      ∃ stop, s.decoded.result = .error (.truncated stop code.size) := by
  have hmem : g ∈ as ++ g :: bs := by simp
  induction r generalizing p offset f with
  | nil =>
    rw [List.append_nil] at hg
    rw [scan_of_mem (List.mem_map.mpr ⟨g, hmem, hg⟩)]
    simp [hg]
  | cons q r ih =>
    have hnot : p ∉ (as ++ g :: bs).map (·.steps) := by
      intro h
      obtain ⟨e, he, rfl⟩ := List.mem_map.mp h
      have := hp.eq_of_prefix he hmem ⟨_, hg.symm⟩
      subst this
      simp at hg
    by_cases ho : offset < code.size
    · have hb : code[offset]? = some code[offset] := by simp [ho]
      obtain ⟨hacc, hrest⟩ : q.accepts code[offset] ∧ mayFit code (offset + 1) r := by
        simpa [mayFit, hb] using hfit
      have hno' : ∀ a ∈ as, ∀ s, a.steps = (p ++ [q]) ++ s → ¬ mayFit code (offset + 1) s := by
        intro a ha s hsteps hs'
        refine hno a ha (q :: s) (by simp [hsteps]) ?_
        simp [mayFit, hb, hacc, hs']
      rw [scan_of_some hnot ho (hs.nextPattern?_eq hg hno hb hacc)]
      have hlen : r.length ≤ code.size - (offset + 1) ↔ r.length + 1 ≤ code.size - offset := by
        omega
      have hend : offset + 1 + r.length = offset + (r.length + 1) := by omega
      have h := ih (f := q.extract code[offset] f) (p := p ++ [q]) (by simp [hg]) hno' hrest
      simpa [hlen, hend] using h
    · rw [scan_of_le hnot (by omega), if_neg (by simp; omega)]
      exact ⟨offset, rfl⟩

theorem exists_fits_of_ok {stop : Int} (h : (scan table code p offset f).decoded.result = .ok stop) :
    ∃ r, (scan table code p offset f).followed = p ++ r ∧ fits code offset r := by
  fun_induction scan table code p offset f with
  | case1 p offset f hmem => exact ⟨[], by simp, rfl⟩
  | case2 => cases h
  | case3 p offset f hmem ho q hq ih =>
    obtain ⟨r, hr, hfits⟩ := ih h
    have hacc := (nextPattern?_eq_some_iff.mp hq).1
    exact ⟨q :: r, by simp [hr], by simp [fits, ho, hacc, hfits]⟩
  | case4 => cases h

theorem exists_error_of_not_fits (h : ∀ e ∈ table, ¬ fits code offset e.steps) :
    ∃ error, (scan table code [] offset f).decoded.result = .error error := by
  rcases hresult : (scan table code [] offset f).decoded.result with error | stop
  · exact ⟨error, rfl⟩
  · obtain ⟨r, hr, hfits⟩ := exists_fits_of_ok hresult
    obtain ⟨e, he, hsteps⟩ := List.mem_map.mp (followed_mem_of_ok hresult)
    rw [hr, List.nil_append] at hsteps
    exact absurd (hsteps ▸ hfits) (h e he)

/-- **A scan of a settled table ends with the first encoding that fits, or at the end of the code.**
The end of the code comes in between only if it cuts off an earlier encoding that is longer. -/
theorem Settled.scan_of_fits (hs : Settled table) (hp : PrefixFree table) {e : Encoding}
    (he : e ∈ table) (hfits : fits code offset e.steps) :
    let s := scan table code [] offset f
    (∃ g, table.find? (fun e => fits code offset e.steps) = some g ∧ s.followed = g.steps ∧
        s.decoded.result = .ok ↑(offset + g.steps.length)) ∨
      (∃ stop, s.decoded.result = .error (.truncated stop code.size)) ∧
        ∃ g, mayFit code offset g.steps ∧ ∀ e ∈ table, fits code offset e.steps →
          [g, e].Sublist table ∧ e.steps.length < g.steps.length := by
  intro s
  -- the first encoding that may fit is there, since the one that fits does
  obtain ⟨g, hg⟩ : ∃ g, table.find? (fun e => mayFit code offset e.steps) = some g := by
    rw [← Option.isSome_iff_exists, List.find?_isSome]
    exact ⟨e, he, (fits_iff.mp hfits).1⟩
  obtain ⟨hmay, as, bs, rfl, has⟩ := List.find?_eq_some_iff_append.mp hg
  have hscan := hs.scan_eq (f := f) hp (p := []) (r := g.steps) rfl (by simpa using has) hmay
  split_ifs at hscan with hle
  · have hnone (a : Encoding) (ha : a ∈ as) : ¬ fits code offset a.steps := fun h => by
      simpa [(fits_iff.mp h).1] using has a ha
    refine .inl ⟨g, List.find?_eq_some_iff_append.mpr ⟨?_, as, bs, rfl, ?_⟩, hscan⟩
    · exact fits_iff.mpr ⟨hmay, hle⟩
    · simpa using hnone
  · refine .inr ⟨hscan, g, hmay, fun e he hfits => ?_⟩
    obtain ⟨hmay', hle'⟩ := fits_iff.mp hfits
    have hlt : e.steps.length < g.steps.length := by omega
    refine ⟨?_, hlt⟩
    rcases List.mem_append.mp he with h | h
    · simpa [hmay'] using has e h
    · rcases List.mem_cons.mp h with rfl | h
      · exact absurd hlt (Nat.lt_irrefl _)
      · have hpair : [g, e].Sublist (g :: bs) := (List.singleton_sublist.mpr h).cons_cons g
        exact hpair.trans (List.sublist_append_right as _)

end Scan

/-! ## The subset -/

namespace BytePattern

/-- The patterns spell different bits where both of them look. -/
def isDisjoint (p q : BytePattern) : Bool :=
  p.accepted.all fun v => q.accepted.all fun w => v &&& q.mask != w &&& p.mask

theorem not_overlaps_of_isDisjoint {p q : BytePattern} (h : p.isDisjoint q) : ¬ p.Overlaps q := by
  rintro ⟨byte, hp, hq⟩
  simp only [isDisjoint, List.all_eq_true, bne_iff_ne] at h
  simp only [accepts, List.contains_iff_mem] at hp hq
  apply h _ hp _ hq
  rw [UInt8.and_assoc, UInt8.and_assoc, UInt8.and_comm p.mask]

/-- The addressing form of a mod/rm pattern. -/
def form? : BytePattern → Option Form
  | .modRegRm form | .mod000Rm form | .modOpRm form => some form
  | _ => none

theorem mode_of_direct {q : BytePattern} {byte : UInt8} (h : q.form? = some .direct)
    (hacc : q.accepts byte) : Mode.ofByte byte = .memory ∧ ByteRole.lowField byte = 6 := by
  have hall : ∀ q ∈ [modRegRm .direct, mod000Rm .direct, modOpRm .direct], ∀ byte,
      q.accepts byte → Mode.ofByte byte = .memory ∧ ByteRole.lowField byte = 6 := by
    decide +kernel
  refine hall q ?_ byte hacc
  cases q <;> simp_all [form?]

/-- Patterns of the bytes of a value. -/
def values : List BytePattern := [.dispLo, .dispHi, .dataLo, .dataHi]

end BytePattern

/-- The second byte of the encoding is a mod/rm byte of the plain memory form. -/
def Encoding.IsPlainMemory (e : Encoding) : Prop := e.steps[1]?.bind BytePattern.form? = some .memory

/-- What two encodings of the subset look like behind their common beginning. -/
def Encoding.partsWell (a b : Encoding) : Bool :=
  match part a.steps b.steps with
  | (q :: r, q' :: r') =>
    q.isDisjoint q' || r.all (BytePattern.values.contains ·) &&
      (r.length ≤ r'.length || a.steps[1]? = some q && b.steps[1]? = some q' &&
        q.form? = some .direct && q'.form? = some .memory)
  | _ => true

/-- Where encodings of the subset overlap, the earlier one goes on with any bytes. It is no longer than
the later one, unless they are the direct and the plain memory form behind one first byte. -/
theorem part_table : Encoding.table.Pairwise fun a b => a.partsWell b := by decide +kernel

section Table

variable {a b e : Encoding} {code : Array UInt8} {offset : Nat} {f : Fields}
  {q q' : BytePattern} {r r' : List BytePattern}

theorem overlap_of_partsWell (h : a.partsWell b)
    (hpart : part a.steps b.steps = (q :: r, q' :: r')) (ho : q.Overlaps q') :
    (∀ x ∈ r, x ∈ BytePattern.values) ∧
      (r.length ≤ r'.length ∨ a.steps[1]? = some q ∧ b.steps[1]? = some q' ∧
        q.form? = some .direct ∧ q'.form? = some .memory) := by
  have hnot : q.isDisjoint q' = false := by
    by_contra hdisjoint
    exact BytePattern.not_overlaps_of_isDisjoint (by simpa using hdisjoint) ho
  simpa [Encoding.partsWell, hpart, hnot, and_assoc] using h

theorem settled_table : Settled Encoding.table :=
  part_table.imp fun hparts _ _ _ _ hpart ho x hx =>
    Textbook.accepts_value ((overlap_of_partsWell hparts hpart ho).1 x hx)

/-- **An encoding that fits is missed only for a longer one that the end of the code cuts off**: it
is plain memory, and what is cut off is a direct address. -/
theorem isPlainMemory_of_cut (hparts : a.partsWell b) (hapart : Apart a.steps b.steps)
    (ha : mayFit code offset a.steps) (hb : fits code offset b.steps)
    (hlt : b.steps.length < a.steps.length) :
    b.IsPlainMemory ∧ ∃ byte, code[offset + 1]? = some byte ∧ Mode.ofByte byte = .memory ∧
      ByteRole.lowField byte = 6 := by
  obtain ⟨hb, hlen⟩ := fits_iff.mp hb
  have hbyte : ∀ k < b.steps.length, ∃ byte, code[offset + k]? = some byte := fun k hk =>
    ⟨_, Array.getElem?_eq_getElem (by omega)⟩
  obtain ⟨p, q, r, q', r', hap, hbp, hpart⟩ := hapart.exists_part
  obtain ⟨byte, hpbyte⟩ := hbyte p.length (by simp [hbp])
  have ho : q.Overlaps q' :=
    ⟨byte, accepts_of_mayFit ha (by simp [hap]) hpbyte, accepts_of_mayFit hb (by simp [hbp]) hpbyte⟩
  obtain ⟨-, hle | ⟨hq, hq', hdirect, hmemory⟩⟩ := overlap_of_partsWell hparts hpart ho
  · simp only [hap, hbp, List.length_append, List.length_cons] at hlt
    omega
  · obtain ⟨byte, hbyte⟩ := hbyte 1 (List.getElem?_eq_some_iff.mp hq').1
    refine ⟨?_, byte, hbyte, BytePattern.mode_of_direct hdirect (accepts_of_mayFit ha hq hbyte)⟩
    rw [Encoding.IsPlainMemory, hq']
    exact hmemory

end Table

/-! ## Decoding -/

namespace Trie

theorem Labelled.patterns_walkAlong {t : Trie} {table : List Encoding}
    {labels : List (List BytePattern)} (hl : t.Labelled labels (firstWith (table.map (·.steps))))
    (he : t.EndsAt labels table) {code : Array UInt8} {offset i : Nat} {p : List BytePattern}
    {f : Fields} (hi : labels[i]? = some p) :
    p ++ patterns (t.walkAlong code i offset f).2 = (scan table code p offset f).followed := by
  have hfollow {i : Nat} {p : List BytePattern} (hi : labels[i]? = some p) (b : UInt8) :
      ((t.node i).follow? b).map (·.pattern) = nextPattern? table p b := by
    rw [hl.follow?_eq hi, first?_remaining, nextPattern?]
  fun_induction scan table code p offset f generalizing i with
  | case1 p offset f hmem =>
    rw [walkAlong_of_isTerminal ((he.isTerminal_iff_mem hi).mpr hmem)]
    exact List.append_nil p
  | case2 p offset f hmem ho hn =>
    have hnone := Option.map_eq_none_iff.mp ((hfollow hi _).trans hn)
    rw [walkAlong_of_none (mt (he.isTerminal_iff_mem hi).mp hmem) (by omega)
      (by rwa [byteAt_natCast ho])]
    exact List.append_nil p
  | case3 p offset f hmem ho q hq ih =>
    obtain ⟨d, hd, rfl⟩ := Option.map_eq_some_iff.mp ((hfollow hi _).trans hq)
    have hrest := ih ((hl.node i p hi).child d (List.mem_of_find?_eq_some hd))
    rw [walkAlong_of_some (mt (he.isTerminal_iff_mem hi).mp hmem) (by omega)
      (by rwa [byteAt_natCast ho]), byteAt_natCast ho, ← hrest]
    simp [patterns]
  | case4 p offset f hmem ho =>
    rw [walkAlong_of_le (mt (he.isTerminal_iff_mem hi).mp hmem) (by omega)]
    exact List.append_nil p

/-- **Decoding needs no way back.** When an instruction is decoded, its encoding is the first one of the
table that fits at the offset. Where some encoding fits, decoding fails only at the end of the code:
the mod/rm byte calls for a direct address, which is cut off, and what fits is plain memory. Where
none fits decoding fails. -/
theorem decode_first_fit (code : Array UInt8) (offset : Nat) (f : Fields) :
    let w := standard.walkAlong code root offset f
    standard.decode code offset f = .ok w.1 ∧
      (∀ stop, w.1.result = .ok stop → ∃ e,
        Encoding.table.find? (fun e => fits code offset e.steps) = some e ∧
          patterns w.2 = e.steps ∧ stop = ↑(offset + e.steps.length)) ∧
      ((∃ e ∈ Encoding.table, fits code offset e.steps) → ∀ error, w.1.result = .error error →
        (∃ stop, error = .truncated stop code.size) ∧
          (∃ byte, code[offset + 1]? = some byte ∧ Mode.ofByte byte = .memory ∧
            ByteRole.lowField byte = 6) ∧
          ∀ e ∈ Encoding.table, fits code offset e.steps → e.IsPlainMemory) ∧
      ((∀ e ∈ Encoding.table, ¬ fits code offset e.steps) →
        ∃ error, w.1.result = .error error) := by
  intro w
  obtain ⟨labels, hl, he⟩ := represents_standard
  have hwalk : patterns w.2 = (scan Encoding.table code [] offset f).followed :=
    hl.patterns_walkAlong he hl.root
  have hdecode : standard.decode code offset f = .ok w.1 := by
    rw [decode, if_neg (by omega), fst_walkAlong]
  have hw : w.1 = (scan Encoding.table code [] offset f).decoded :=
    Except.ok.inj (hdecode.symm.trans (decode_of_build build_table code offset f))
  refine ⟨hdecode, ?_⟩
  rw [hw, hwalk]
  by_cases hsome : ∃ e ∈ Encoding.table, fits code offset e.steps
  · obtain ⟨e, he, hfits⟩ := hsome
    rcases settled_table.scan_of_fits (f := f) prefixFree_table he hfits with
      ⟨g, hg, hfollowed, hok⟩ | ⟨⟨stop, herror⟩, g, hmay, hcut⟩
    · refine ⟨fun stop hstop => ⟨g, hg, hfollowed, ?_⟩, fun _ error herror => ?_, fun hno => ?_⟩
      · exact (Except.ok.inj (hok.symm.trans hstop)).symm
      · cases hok.symm.trans herror
      · exact absurd hfits (hno e he)
    · have hplain (e : Encoding) (he : e ∈ Encoding.table) (hfits : fits code offset e.steps) :
          e.IsPlainMemory ∧ ∃ byte, code[offset + 1]? = some byte ∧ Mode.ofByte byte = .memory ∧
            ByteRole.lowField byte = 6 := by
        obtain ⟨hpair, hlt⟩ := hcut e he hfits
        have hparts : [g, e].Pairwise fun a b => a.partsWell b := part_table.sublist hpair
        have hapart : [g, e].Pairwise fun a b => Apart a.steps b.steps :=
          prefixFree_table.2.sublist hpair
        rw [List.pairwise_pair] at hparts hapart
        exact isPlainMemory_of_cut hparts hapart hmay hfits hlt
      refine ⟨fun _ hok => ?_, fun _ error herror' => ⟨⟨stop, ?_⟩, ?_, ?_⟩, fun hno => ?_⟩
      · cases herror.symm.trans hok
      · exact (Except.error.inj (herror.symm.trans herror')).symm
      · exact (hplain e he hfits).2
      · exact fun e he hfits => (hplain e he hfits).1
      · exact absurd hfits (hno e he)
  · have hno : ∀ e ∈ Encoding.table, ¬ fits code offset e.steps := by simpa using hsome
    obtain ⟨error, herror⟩ := exists_error_of_not_fits (f := f) hno
    refine ⟨fun _ hok => ?_, fun h => absurd h hsome, fun _ => ⟨error, herror⟩⟩
    cases herror.symm.trans hok

/-- `mov [0x1234], ax` cut off behind its mod/rm byte: the encoding in plain memory fits. -/
theorem decode_first_fit_cut :
    let code : Array UInt8 := #[0x89, 0x06]
    let w := standard.walkAlong code root 0 {}
    (∃ e ∈ Encoding.table, fits code 0 e.steps) ∧ w.1.result = .error (.truncated 2 2) ∧
      ∀ e ∈ Encoding.table, fits code 0 e.steps → e.IsPlainMemory := by
  intro code w
  have hfits : ∃ e ∈ Encoding.table, fits code 0 e.steps := by decide +kernel
  obtain ⟨hdecode, -, hsome, -⟩ := decode_first_fit code 0 {}
  have hw : w.1 = (scan Encoding.table code [] 0 {}).decoded :=
    Except.ok.inj (hdecode.symm.trans (decode_of_build build_table code 0 {}))
  have hresult : w.1.result = .error (.truncated 2 2) := by
    rw [hw, scan_of_some (q := .regRmHead) (by decide +kernel) (by decide) (by decide +kernel),
      scan_of_some (q := .modRegRm .direct) (by decide +kernel) (by decide) (by decide +kernel),
      scan_of_le (by decide +kernel) (by decide)]
    rfl
  obtain ⟨-, -, hplain⟩ := hsome hfits _ hresult
  exact ⟨hfits, hresult, hplain⟩

end Trie

end Micro8086
