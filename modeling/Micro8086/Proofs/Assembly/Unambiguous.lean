import Mathlib.Data.FinEnum
import Std.Data.String.ToInt
import Micro8086.Proofs.Instruction.Decode
import Micro8086.Proofs.Assembly.Line

/-!
# Lines are unambiguous

A line can be read back: the mnemonic ends at the first blank and the destination at the comma, a
size stands before its term, letters tell the base registers of an address, and numbers are decimal.

* `splitSize`: the size that a text begins with;
* `Term.text_injective`: a term is known by its text;
* `Instruction.line_injective`: operation and terms of an instruction are known by its line;
* **`Fields.meaning_of_assembly`**: so are its width and its operands.
-/

namespace Micro8086

/-! ## Characters -/

theorem split_at_mark {c : Char} {xs xs' ys ys' : List Char} (hx : c ∉ xs) (hx' : c ∉ xs')
    (h : xs ++ c :: ys = xs' ++ c :: ys') : xs = xs' ∧ ys = ys' := by
  induction xs generalizing xs' with
  | nil =>
    rcases xs' with _ | ⟨x', xs'⟩
    · exact ⟨rfl, (List.cons.inj h).2⟩
    · exact absurd ((List.cons.inj h).1 ▸ List.mem_cons_self) hx'
  | cons x xs ih =>
    rcases xs' with _ | ⟨x', xs'⟩
    · exact absurd ((List.cons.inj h).1 ▸ List.mem_cons_self) hx
    · obtain ⟨rfl, ht⟩ := List.cons.inj h
      obtain ⟨rfl, hy⟩ := ih (fun hc => hx (List.mem_cons_of_mem _ hc))
        (fun hc => hx' (List.mem_cons_of_mem _ hc)) ht
      exact ⟨rfl, hy⟩

/-- A character of a decimal number. -/
def IsNumeric (c : Char) : Prop := c = '-' ∨ c.isDigit = true

theorem isNumeric_of_mem_toString {v : Int} {c : Char} (h : c ∈ (toString v).toList) :
    IsNumeric c := by
  have hrepr : ∀ {n : Nat}, c ∈ n.repr.toList → c.isDigit = true := by
    intro n hc
    rw [Nat.toList_repr] at hc
    exact Nat.isDigit_of_mem_toDigits (by decide) (by decide) hc
  rw [Int.toString_eq_repr, Int.repr_eq_if] at h
  split_ifs at h with hv
  · exact Or.inr (hrepr h)
  · rw [String.toList_append, List.mem_append] at h
    rcases h with h | h
    · exact Or.inl (List.mem_singleton.mp h)
    · exact Or.inr (hrepr h)

theorem exists_toString_cons (v : Int) :
    ∃ c cs, (toString v).toList = c :: cs ∧ IsNumeric c := by
  rcases h : (toString v).toList with _ | ⟨c, cs⟩
  · rw [Int.toString_eq_repr, Int.repr_eq_if] at h
    split_ifs at h
    · rw [Nat.toList_repr] at h
      exact absurd h Nat.toDigits_ne_nil
    · simp at h
  · exact ⟨c, cs, rfl, isNumeric_of_mem_toString (h ▸ List.mem_cons_self)⟩

theorem toString_injective {a b : Int} (h : (toString a).toList = (toString b).toList) : a = b :=
  Int.repr_injective (String.toList_injective h)

theorem IsNumeric.isAlpha_eq_false {c : Char} (h : IsNumeric c) : c.isAlpha = false := by
  rcases h with rfl | h
  · decide
  · rw [Char.isDigit, Bool.and_eq_true, decide_eq_true_eq, decide_eq_true_eq, ge_iff_le,
      UInt32.le_iff_toNat_le, UInt32.le_iff_toNat_le] at h
    have halpha : c.isAlpha = (decide (c.val ≥ 'A'.val ∧ c.val ≤ 'Z'.val) ||
        (decide (c.val ≥ 'a'.val) && decide (c.val ≤ 'z'.val))) := rfl
    rw [halpha]
    simp only [Bool.or_eq_false_iff, Bool.and_eq_false_iff, decide_eq_false_iff_not, not_and,
      ge_iff_le, UInt32.le_iff_toNat_le]
    have h0 : '0'.val.toNat = 48 := rfl
    have h9 : '9'.val.toNat = 57 := rfl
    have hA : 'A'.val.toNat = 65 := rfl
    have ha : 'a'.val.toNat = 97 := rfl
    omega

/-! ## Addresses -/

/-- The letters of a text. -/
def letters (cs : List Char) : List Char := cs.filter Char.isAlpha

theorem letters_append (cs ds : List Char) : letters (cs ++ ds) = letters cs ++ letters ds :=
  List.filter_append cs ds

theorem letters_toString (v : Int) : letters (toString v).toList = [] := by
  rw [letters, List.filter_eq_nil_iff]
  intro c hc
  rw [(isNumeric_of_mem_toString hc).isAlpha_eq_false]
  decide

namespace EffectiveAddress

theorem toList_displacementText (d : Int) : (displacementText d).toList =
    if d > 0 then ' ' :: '+' :: ' ' :: (toString d).toList
    else if d < 0 then ' ' :: '-' :: ' ' :: (toString (-d)).toList else [] := by
  rw [displacementText]
  split_ifs
  · rw [String.toList_append]
    rfl
  · rw [String.toList_append]
    rfl
  · rfl

theorem letters_displacementText (d : Int) : letters (displacementText d).toList = [] := by
  rw [toList_displacementText]
  split_ifs
  · exact letters_toString d
  · exact letters_toString (-d)
  · rfl

theorem displacementText_injective {a b : Int}
    (h : (displacementText a).toList = (displacementText b).toList) : a = b := by
  rw [toList_displacementText, toList_displacementText] at h
  split_ifs at h
  · simp only [List.cons.injEq, true_and] at h
    exact toString_injective h
  · simp at h
  · simp at h
  · simp only [List.cons.injEq, true_and] at h
    have := toString_injective h
    omega
  · omega

/-- The letters of the base registers. -/
def baseLetters : Option (Fin 8) → List Char
  | none => []
  | some i => letters (codedBases i).toList

theorem baseLetters_injective {b b' : Option (Fin 8)} (h : baseLetters b = baseLetters b') :
    b = b' := by
  have hall : ∀ i : Fin 8, baseLetters (some i) ≠ [] ∧
      ∀ j : Fin 8, baseLetters (some i) = baseLetters (some j) → i = j := by
    decide
  rcases b with _ | i
  · rcases b' with _ | j
    · rfl
    · exact absurd h.symm (hall j).1
  · rcases b' with _ | j
    · exact absurd h (hall i).1
    · exact congrArg some ((hall i).2 j h)

theorem letters_codedText (base : Option (Fin 8)) (d : Int) :
    letters (codedText base d).toList = baseLetters base := by
  rcases base with _ | i
  · exact letters_toString d
  · rw [codedText, String.toList_append, letters_append, letters_displacementText, List.append_nil]
    rfl

theorem codedText_injective {base base' : Option (Fin 8)} {d d' : Int} (hd : 0 ≤ d ∧ d < 65536)
    (hd' : 0 ≤ d' ∧ d' < 65536) (h : (codedText base d).toList = (codedText base' d').toList) :
    base = base' ∧ d = d' := by
  have hbase : base = base' := by
    apply baseLetters_injective
    rw [← letters_codedText base d, ← letters_codedText base' d', h]
  subst hbase
  refine ⟨rfl, ?_⟩
  rcases base with _ | i
  · exact toString_injective h
  · rw [codedText, codedText, String.toList_append, String.toList_append] at h
    have hs := displacementText_injective (List.append_cancel_left h)
    rw [← low16_toSigned16_eq_self hd, hs, low16_toSigned16_eq_self hd']

end EffectiveAddress

/-! ## Terms -/

/-- The size that a text begins with, and what follows it. -/
def splitSize : List Char → Option Bool × List Char
  | 'b' :: 'y' :: 't' :: 'e' :: ' ' :: cs => (some false, cs)
  | 'w' :: 'o' :: 'r' :: 'd' :: ' ' :: cs => (some true, cs)
  | cs => (none, cs)

theorem splitSize_of_not_isAlpha {c : Char} (hc : c.isAlpha = false) (cs : List Char) :
    splitSize (c :: cs) = (none, c :: cs) := by
  unfold splitSize
  split
  · exact absurd ((List.cons.inj ‹_›).1 ▸ hc) (by decide)
  · exact absurd ((List.cons.inj ‹_›).1 ▸ hc) (by decide)
  · rfl

namespace Term

/-- The displacement of a term is a word. -/
def InRange : Term → Prop
  | mem _ _ d => 0 ≤ d ∧ d < 65536
  | _ => True

/-- The text of a term behind its size. -/
def bare : Term → List Char
  | reg w i => (Register.codedName w i).toList
  | mem _ base d => '[' :: ((EffectiveAddress.codedText base d).toList ++ [']'])
  | imm _ v => (toString v).toList

/-- The size of a term. -/
def size : Term → Option Bool
  | reg _ _ => none
  | mem size _ _ => size
  | imm size _ => size

/-- The width that a term tells. -/
def width? : Term → Option Bool
  | reg w _ => some w
  | mem size _ _ => size
  | imm size _ => size

theorem toList_text (t : Term) : t.text.toList = (sizeText t.size).toList ++ t.bare := by
  cases t with
  | reg w i => rfl
  | mem size base d => simp [text, bare, Term.size]
  | imm size v => simp [text, bare, Term.size]

theorem splitSize_append (size : Option Bool) {c : Char} (hc : c.isAlpha = false) (cs : List Char) :
    splitSize ((sizeText size).toList ++ c :: cs) = (size, c :: cs) := by
  rcases size with _ | w
  · exact splitSize_of_not_isAlpha hc cs
  · cases w <;> rfl

theorem splitSize_text (t : Term) : splitSize t.text.toList = (t.size, t.bare) := by
  rw [toList_text]
  cases t with
  | reg w i =>
    change splitSize (Register.codedName w i).toList = (none, (Register.codedName w i).toList)
    revert i
    cases w <;> decide
  | mem size base d => exact splitSize_append size (by decide) _
  | imm size v =>
    obtain ⟨c, cs, hv, hc⟩ := exists_toString_cons v
    rw [bare, hv]
    exact splitSize_append size hc.isAlpha_eq_false cs

theorem codedName_injective {w w' : Bool} {i i' : Fin 8}
    (h : (Register.codedName w i).toList = (Register.codedName w' i').toList) : w = w' ∧ i = i' := by
  revert i i'
  cases w <;> cases w' <;> decide

/-- Whether a text begins with a letter, and whether it begins with a bracket. -/
def start (cs : List Char) : Option (Bool × Bool) := cs.head?.map fun c => (c.isAlpha, c == '[')

/-- Names begin with a letter, locations with a bracket, numbers with neither. -/
def startOf : Term → Bool × Bool
  | reg _ _ => (true, false)
  | mem _ _ _ => (false, true)
  | imm _ _ => (false, false)

theorem start_bare (t : Term) : start t.bare = some t.startOf := by
  cases t with
  | reg w i =>
    change start (Register.codedName w i).toList = _
    revert i
    cases w <;> decide
  | mem size base d => rfl
  | imm size v =>
    obtain ⟨c, cs, hv, hc⟩ := exists_toString_cons v
    have hne : (c == '[') = false := by
      rw [beq_eq_false_iff_ne]
      rintro rfl
      rcases hc with h | h
      · exact absurd h (by decide)
      · exact absurd h (by decide)
    rw [bare, hv, start, List.head?_cons, Option.map_some, hc.isAlpha_eq_false, hne]
    rfl

/-- **A term is known by its text.** -/
theorem text_injective {t u : Term} (ht : t.InRange) (hu : u.InRange)
    (h : t.text.toList = u.text.toList) : t = u := by
  have hsplit := (splitSize_text t).symm.trans ((congrArg splitSize h).trans (splitSize_text u))
  obtain ⟨hsize, hbare⟩ := Prod.mk.inj hsplit
  have hstart := (start_bare t).symm.trans ((congrArg start hbare).trans (start_bare u))
  cases t with
  | reg w i =>
    cases u with
    | reg w' i' =>
      obtain ⟨rfl, rfl⟩ := codedName_injective hbare
      rfl
    | mem | imm => cases hstart
  | mem size base d =>
    cases u with
    | mem size' base' d' =>
      have hinner := List.append_cancel_right (List.cons.inj hbare).2
      obtain ⟨rfl, rfl⟩ := EffectiveAddress.codedText_injective ht hu hinner
      exact congrArg (mem · base d) hsize
    | reg | imm => cases hstart
  | imm size v =>
    cases u with
    | imm size' v' =>
      obtain rfl := toString_injective hbare
      exact congrArg (imm · v) hsize
    | reg | mem => cases hstart

theorem comma_notMem_codedText (base : Option (Fin 8)) (d : Int) :
    ',' ∉ (EffectiveAddress.codedText base d).toList := by
  have hnum : ∀ v : Int, ',' ∉ (toString v).toList := by
    intro v hv
    rcases isNumeric_of_mem_toString hv with h | h
    · exact absurd h (by decide)
    · exact absurd h (by decide)
  rcases base with _ | i
  · exact hnum d
  · have hbases : ∀ i : Fin 8, ',' ∉ (EffectiveAddress.codedBases i).toList := by decide
    rw [EffectiveAddress.codedText, String.toList_append, List.mem_append, not_or,
      EffectiveAddress.toList_displacementText]
    refine ⟨hbases i, ?_⟩
    split_ifs
    · simpa using hnum _
    · simpa using hnum _
    · exact List.not_mem_nil

theorem comma_notMem_text (t : Term) : ',' ∉ t.text.toList := by
  have hsize : ∀ size : Option Bool, ',' ∉ (sizeText size).toList := by
    intro size
    rcases size with _ | w
    · decide
    · cases w <;> decide
  rw [toList_text, List.mem_append, not_or]
  refine ⟨hsize t.size, ?_⟩
  cases t with
  | reg w i =>
    change ',' ∉ (Register.codedName w i).toList
    revert i
    cases w <;> decide
  | mem size base d =>
    simpa [bare] using comma_notMem_codedText base d
  | imm size v => exact comma_notMem_codedText none v

end Term

theorem RegMem.inRange_term (rm : RegMem) (w : Bool) (size : Option Bool) :
    (rm.term w size).InRange := by
  by_cases h : rm.mode = .register
  · rw [term_of_register h]
    trivial
  · rw [term_of_memory h]
    exact dispValue_range rm.disp

theorem RegMem.width?_term (rm : RegMem) (w : Bool) (size : Option Bool) :
    (rm.term w size).width? = if rm.mode = .register then some w else size := by
  by_cases h : rm.mode = .register
  · rw [term_of_register h, if_pos h]
    rfl
  · rw [term_of_memory h, if_neg h]
    rfl

/-! ## Mnemonics -/

theorem Opcode.mem_all (o : Opcode) : o ∈ all := by
  cases o with
  | jump j => cases j <;> decide
  | _ => decide

theorem Opcode.mnemonic_injective {o o' : Opcode} (h : o.mnemonic = o'.mnemonic) : o = o' := by
  have hall : ∀ o ∈ all, ∀ o' ∈ all, o.mnemonic = o'.mnemonic → o = o' := by decide +kernel
  exact hall o o.mem_all o' o'.mem_all h

theorem Opcode.blank_notMem_mnemonic (o : Opcode) : ' ' ∉ o.mnemonic.toList := by
  have hall : ∀ o ∈ all, ' ' ∉ o.mnemonic.toList := by decide +kernel
  exact hall o o.mem_all

/-! ## Lines -/

namespace Instruction

/-- What follows the mnemonic and a blank. -/
def operands (i : Instruction) : List Char :=
  i.destination.text.toList ++ i.source.elim [] fun t => ',' :: ' ' :: t.text.toList

theorem toList_line (i : Instruction) :
    i.line.toList = i.fields.opcode.mnemonic.toList ++ ' ' :: i.operands := by
  rw [line, operands]
  rcases i.source with _ | t
  · simp
  · simp

theorem inRange_destination (i : Instruction) : i.destination.InRange := by
  cases i with
  | regRm op d w reg rm =>
    cases d with
    | false => exact rm.inRange_term w none
    | true => trivial
  | movRm w rm => exact rm.inRange_term w none
  | movAcc d w lo hi =>
    cases d with
    | false => exact dispValue_range [lo, hi]
    | true => trivial
  | arithRm op s w rm => exact rm.inRange_term w (some w)
  | movReg | arithAcc | jump => trivial

theorem inRange_source (i : Instruction) : ∀ t, i.source = some t → t.InRange := by
  intro t ht
  cases i with
  | regRm op d w reg rm =>
    obtain rfl := Option.some.inj ht
    cases d with
    | false => trivial
    | true => exact rm.inRange_term w none
  | movAcc d w lo hi =>
    obtain rfl := Option.some.inj ht
    cases d with
    | false => trivial
    | true => exact dispValue_range [lo, hi]
  | jump => cases ht
  | movRm | movReg | arithRm | arithAcc =>
    obtain rfl := Option.some.inj ht
    trivial

theorem operands_injective {i j : Instruction} (h : i.operands = j.operands) :
    i.destination = j.destination ∧ i.source = j.source := by
  rw [operands, operands] at h
  rcases hi : i.source with _ | s <;> rcases hj : j.source with _ | t <;> rw [hi, hj] at h
  · rw [Option.elim_none, List.append_nil, List.append_nil] at h
    exact ⟨Term.text_injective i.inRange_destination j.inRange_destination h, rfl⟩
  · rw [Option.elim_none, Option.elim_some, List.append_nil] at h
    exact absurd (h ▸ List.mem_append_right _ List.mem_cons_self) i.destination.comma_notMem_text
  · rw [Option.elim_none, Option.elim_some, List.append_nil] at h
    exact absurd (h ▸ List.mem_append_right _ List.mem_cons_self) j.destination.comma_notMem_text
  · obtain ⟨hdst, hsrc⟩ := split_at_mark i.destination.comma_notMem_text
      j.destination.comma_notMem_text h
    refine ⟨Term.text_injective i.inRange_destination j.inRange_destination hdst, ?_⟩
    rw [Term.text_injective (i.inRange_source s hi) (j.inRange_source t hj) (List.cons.inj hsrc).2]

/-- **Operation and terms of an instruction are known by its line.** -/
theorem line_injective {i j : Instruction} (h : i.line = j.line) :
    i.fields.opcode = j.fields.opcode ∧ i.destination = j.destination ∧ i.source = j.source := by
  have hlist := congrArg String.toList h
  rw [toList_line, toList_line] at hlist
  obtain ⟨hop, hoperands⟩ := split_at_mark (Opcode.blank_notMem_mnemonic _)
    (Opcode.blank_notMem_mnemonic _) hlist
  exact ⟨Opcode.mnemonic_injective (String.toList_injective hop), operands_injective hoperands⟩

theorem w_fields (i : Instruction) :
    i.fields.w = (i.destination.width?.or (i.source.bind Term.width?)).getD false := by
  cases i with
  | regRm op d w reg rm =>
    cases d with
    | false =>
      change w = ((rm.term w none).width?.or (some w)).getD false
      rw [rm.width?_term]
      split_ifs <;> rfl
    | true => rfl
  | movRm w rm =>
    change w = ((rm.term w none).width?.or (if rm.mode = .register then none else some w)).getD false
    rw [rm.width?_term]
    split_ifs <;> rfl
  | movAcc d w lo hi => cases d <;> rfl
  | arithRm op s w rm =>
    change w = ((rm.term w (some w)).width?.or none).getD false
    rw [rm.width?_term]
    split_ifs <;> rfl
  | movReg | arithAcc | jump => rfl

end Instruction

/-- **A line tells the meaning of its instruction**: every instruction has a line, and those with the
same line have the same operation, width and operands. -/
theorem Fields.meaning_of_assembly {code code' : Array UInt8} {offset offset' : Nat} {f g : Fields}
    {stop stop' : Int} (hf : Trie.standard.decode code offset {} = .ok ⟨f, .ok stop⟩)
    (hg : Trie.standard.decode code' offset' {} = .ok ⟨g, .ok stop'⟩)
    (h : f.assembly = g.assembly) :
    (∃ line, f.assembly = .ok line) ∧
      f.opcode = g.opcode ∧ f.w = g.w ∧ f.destination = g.destination ∧ f.source = g.source := by
  obtain ⟨i, -, rfl, -⟩ := Trie.decode_standard_iff.mp hf
  obtain ⟨j, -, rfl, -⟩ := Trie.decode_standard_iff.mp hg
  rw [i.assembly_fields, j.assembly_fields] at h
  obtain ⟨hop, hdst, hsrc⟩ := Instruction.line_injective (Except.ok.inj h)
  refine ⟨⟨_, i.assembly_fields⟩, hop, ?_, ?_, ?_⟩
  · rw [i.w_fields, j.w_fields, hdst, hsrc]
  · rw [i.destination_fields, j.destination_fields, hdst]
  · rw [i.source_fields, j.source_fields, hsrc]

/-- Two encodings of `add ax, 5`: the accumulator form with a word, and a signed byte. -/
theorem Fields.meaning_of_assembly_add_ax :
    let f : Fields :=
      { opcode := .add, shape := .immedReg, d := true, w := true, reg := some 0
        dataLo := some 5, dataHi := some 0 }
    let g : Fields :=
      { opcode := .add, shape := .immedRmArith, mode := some .register, w := true, s := true
        rm := some 0, dataLo := some 5 }
    Trie.standard.decode #[0x05, 0x05, 0x00] (0 : Nat) {} = .ok ⟨f, .ok 3⟩ ∧
      Trie.standard.decode #[0x83, 0xC0, 0x05] (0 : Nat) {} = .ok ⟨g, .ok 3⟩ ∧
      f.assembly = g.assembly ∧ f.destination = g.destination ∧ f.source = g.source := by
  intro f g
  have hf : Trie.standard.decode #[0x05, 0x05, 0x00] (0 : Nat) {} = .ok ⟨f, .ok 3⟩ :=
    Trie.decode_standard_iff.mpr
      ⟨.arithAcc .add true [0x05, 0x00] rfl, ⟨rfl, rfl, rfl, trivial⟩, rfl, rfl⟩
  have hg : Trie.standard.decode #[0x83, 0xC0, 0x05] (0 : Nat) {} = .ok ⟨g, .ok 3⟩ :=
    Trie.decode_standard_iff.mpr
      ⟨.arithRm .add true true ⟨.register, 0, [], rfl⟩ [0x05] rfl, ⟨rfl, rfl, rfl, trivial⟩, rfl, rfl⟩
  have h : f.assembly = g.assembly := rfl
  obtain ⟨-, -, -, hdst, hsrc⟩ := meaning_of_assembly hf hg h
  exact ⟨hf, hg, h, hdst, hsrc⟩

end Micro8086
