import Mathlib.Data.FinEnum
import Micro8086.Proofs.Trie.Rows
import Micro8086.Proofs.Textbook.Decoder

/-!
# Table and textbook decode alike

* `Decoded.Agrees`: what decoding leaves is what another decoder returns;
* `spell`: a row of bytes that are accepted whatever they are;
* `familyRows`, `agrees_family`: the five addressing forms behind a first byte;
* **`decode_standard_agrees`**: the trie of the subset decodes as the textbook does.
-/

namespace Micro8086

/-- A whole instruction is left with the same fields and the same end, an error for the same
reason. -/
def Decoded.Agrees (d : Decoded) : Except DecodeError (Fields × Nat) → Prop
  | .ok (f, next) => d = ⟨f, .ok next⟩
  | .error e => d.result = .error e

theorem Decoded.Agrees.of_eq {d : Decoded} {r s : Except DecodeError (Fields × Nat)}
    (h : d.Agrees r) (e : r = s) : d.Agrees s := e ▸ h

namespace Textbook

variable {rows : List (List BytePattern)} {code : Array UInt8} {offset : Nat} {f : Fields}

/-! ## Rows of any bytes -/

theorem agrees_of_mem (h : [] ∈ rows) :
    (Rows.walk rows code offset f).Agrees (.ok (f, offset)) := by
  rw [Rows.walk_of_mem h]
  rfl

/-- **One byte.** Rows that go on agree with a decoder that fetches a byte, if they do so behind it. -/
theorem agrees_fetch (h : [] ∉ rows) {k : UInt8 → Except DecodeError (Fields × Nat)}
    (hk : ∀ b, match Rows.first? rows b with
      | none => k b = .error (.noMatch offset b)
      | some p => (Rows.walk (Rows.after p rows) code (offset + 1) (p.extract b f)).Agrees (k b)) :
    (Rows.walk rows code offset f).Agrees (fetch code offset >>= k) := by
  unfold fetch
  split_ifs with ho
  · have hb := hk code[offset]
    rw [Rows.walk_of_lt h ho]
    change Decoded.Agrees _ (k code[offset])
    rcases hp : Rows.first? rows code[offset] with _ | p
    · rw [hp] at hb
      rw [hb]
      rfl
    · rw [hp] at hb
      exact hb
  · rw [Rows.walk_of_le h (by omega)]
    rfl

/-- Spells the fields of one byte for each pattern. -/
def spell (code : Array UInt8) : List BytePattern → Nat → Fields → Except DecodeError (Fields × Nat)
  | [], offset, f => .ok (f, offset)
  | p :: ps, offset, f => do
    let b ← fetch code offset
    spell code ps (offset + 1) (p.extract b f)

theorem spell_append (ps qs : List BytePattern) (offset : Nat) (f : Fields) :
    spell code (ps ++ qs) offset f =
      spell code ps offset f >>= fun r => spell code qs r.2 r.1 := by
  induction ps generalizing offset f with
  | nil => rfl
  | cons p ps ih =>
    rw [List.cons_append, spell, spell, bind_assoc]
    exact congrArg _ (funext fun b => ih (offset + 1) (p.extract b f))

theorem agrees_spell (ps : List BytePattern) (h : ∀ p ∈ ps, ∀ b, p.accepts b = true)
    (offset : Nat) (f : Fields) :
    (Rows.walk [ps] code offset f).Agrees (spell code ps offset f) := by
  induction ps generalizing offset f with
  | nil => exact agrees_of_mem (List.mem_singleton_self _)
  | cons p ps ih =>
    refine agrees_fetch (by simp) fun b => ?_
    have hfirst : Rows.first? [p :: ps] b = some p := by
      simp [Rows.first?, h p List.mem_cons_self b]
    have hafter : Rows.after p [p :: ps] = [ps] := by simp [Rows.after, Rows.rest?]
    rw [hfirst]
    simp only [hafter]
    exact ih (fun q hq => h q (List.mem_cons_of_mem _ hq)) _ _

/-! ## Addressing forms -/

/-- The addressing form of a mod/rm byte. -/
def formOf (modRm : UInt8) : Form :=
  match bits modRm 6 2 with
  | 0b00 => if bits modRm 0 3 = 0b110 then .direct else .memory
  | 0b01 => .disp8
  | 0b10 => .disp16
  | _ => .register

/-- The displacement that a form calls for. -/
def dispBytes : Form → List BytePattern
  | .register | .memory => []
  | .disp8 => [.dispLo]
  | .disp16 | .direct => [.dispLo, .dispHi]

/-- The data of an immediate. -/
def dataBytes (wide : Bool) : List BytePattern := if wide then [.dataLo, .dataHi] else [.dataLo]

theorem dispBytes_formOf (m : UInt8) :
    dispBytes (formOf m) = [.dispLo, .dispHi].take (displacementSize m) := by
  unfold formOf displacementSize
  generalize bits m 6 2 = mode
  match mode with
  | 0 => by_cases h : bits m 0 3 = 0b110 <;> simp [h, dispBytes]
  | 1 | 2 | _ + 3 => rfl

theorem displacementSize_le (m : UInt8) : displacementSize m ≤ 2 := by
  unfold displacementSize
  split
  · split_ifs <;> omega
  all_goals omega

theorem spell_dispBytes (m : UInt8) :
    spell code (dispBytes (formOf m)) offset f = displacement code offset (displacementSize m) f := by
  have hle := displacementSize_le m
  rw [dispBytes_formOf]
  obtain h | h | h : displacementSize m = 0 ∨ displacementSize m = 1 ∨ displacementSize m = 2 := by
    omega
  all_goals rw [h]; rfl

theorem accepts_value {p : BytePattern} (h : p ∈ [.dispLo, .dispHi, .dataLo, .dataHi]) (b : UInt8) :
    p.accepts b = true := by
  simp only [List.mem_cons, List.not_mem_nil, or_false] at h
  rcases h with rfl | rfl | rfl | rfl <;>
    simp [BytePattern.accepts, BytePattern.accepted, BytePattern.mask]

theorem accepts_dispBytes (form : Form) : ∀ p ∈ dispBytes form, ∀ b, p.accepts b = true := by
  have hsub : dispBytes form ⊆ [.dispLo, .dispHi, .dataLo, .dataHi] := by cases form <;> decide
  exact fun p hp => accepts_value (hsub hp)

theorem accepts_dataBytes (wide : Bool) : ∀ p ∈ dataBytes wide, ∀ b, p.accepts b = true := by
  have hsub : dataBytes wide ⊆ [.dispLo, .dispHi, .dataLo, .dataHi] := by cases wide <;> decide
  exact fun p hp => accepts_value (hsub hp)

theorem spell_dataBytes (wide : Bool) :
    spell code (dataBytes wide) offset f = data code offset wide f := by
  cases wide <;> rfl

/-- The rows of the five forms, in the order of their priority. -/
def familyRows (modRm : Form → BytePattern) (data : List BytePattern) : List (List BytePattern) :=
  [modRm .register :: data, modRm .disp8 :: .dispLo :: data,
    modRm .disp16 :: .dispLo :: .dispHi :: data, modRm .direct :: .dispLo :: .dispHi :: data,
    modRm .memory :: data]

theorem after_familyRows {modRm : Form → BytePattern} (hinj : Function.Injective modRm)
    (data : List BytePattern) (form : Form) :
    Rows.after (modRm form) (familyRows modRm data) = [dispBytes form ++ data] := by
  cases form <;> simp [Rows.after, Rows.rest?, familyRows, dispBytes, hinj.eq_iff]

/-- **The five forms.** -/
theorem agrees_family {modRm : Form → BytePattern} (hinj : Function.Injective modRm)
    (takes : UInt8 → Bool)
    (hfirst : ∀ m, Rows.first? (familyRows modRm []) m =
      if takes m then some (modRm (formOf m)) else none)
    (ps : List BytePattern) (hps : ∀ p ∈ ps, ∀ b, p.accepts b = true) :
    (Rows.walk (familyRows modRm ps) code offset f).Agrees (do
      let m ← fetch code offset
      if takes m then
        let r ← displacement code (offset + 1) (displacementSize m)
          ((modRm (formOf m)).extract m f)
        spell code ps r.2 r.1
      else
        .error (.noMatch offset m)) := by
  refine agrees_fetch (by simp [familyRows]) fun m => ?_
  have hdata : Rows.first? (familyRows modRm ps) m = Rows.first? (familyRows modRm []) m := rfl
  rw [hdata, hfirst]
  split_ifs with ht
  · simp only [after_familyRows hinj, ← spell_dispBytes, ← spell_append]
    refine agrees_spell _ (fun p hp => ?_) _ _
    rcases List.mem_append.mp hp with hp | hp
    · exact accepts_dispBytes _ p hp
    · exact hps p hp
  · rfl

/-! ## First bytes -/

/-- The pattern that recognises the first byte of a kind. -/
def Kind.pattern (b : UInt8) : Kind → BytePattern
  | .regRm => .regRmHead
  | .movRm => .movImmedRm (.ofBit (bit b 0))
  | .movReg => .movImmedReg (.ofBit (bit b 3))
  | .movAcc => .movAccMem
  | .arithRm => .immedRmHead (.ofBit (b == 0x81))
  | .arithAcc => .immedAccHead (.ofBit (bit b 0))
  | .jump j => .jump j

/-- The rows behind the first byte of a kind. -/
def Kind.tails (b : UInt8) : Kind → List (List BytePattern)
  | .regRm => familyRows .modRegRm []
  | .movRm => familyRows .mod000Rm (dataBytes (bit b 0))
  | .movReg => [dataBytes (bit b 3)]
  | .movAcc => [[.dispLo, .dispHi]]
  | .arithRm => familyRows .modOpRm (dataBytes (b == 0x81))
  | .arithAcc => [dataBytes (bit b 0)]
  | .jump _ => [[.dispLo]]

/-- The first patterns of the table. -/
def tableHeads : List BytePattern :=
  List.replicate 5 .regRmHead ++ List.replicate 5 (.movImmedRm .byte) ++
    List.replicate 5 (.movImmedRm .word) ++
    [.movImmedReg .byte, .movImmedReg .word, .movAccMem] ++
    List.replicate 5 (.immedRmHead .byte) ++ List.replicate 5 (.immedRmHead .word) ++
    [.immedAccHead .byte, .immedAccHead .word] ++ Jump.all.map .jump

theorem heads_table : (Encoding.table.map (·.steps)).filterMap List.head? = tableHeads := rfl

theorem first?_table (b : UInt8) :
    Rows.first? (Encoding.table.map (·.steps)) b = (kind? b).map (Kind.pattern b) := by
  rw [Rows.first?_eq_find?, heads_table]
  revert b
  decide +kernel

theorem after_pattern (b : UInt8) (k : Kind) :
    Rows.after (k.pattern b) (Encoding.table.map (·.steps)) = k.tails b := by
  unfold Kind.pattern Kind.tails
  cases k with
  | regRm | movAcc => rfl
  | movRm | arithAcc => cases bit b 0 <;> rfl
  | movReg => cases bit b 3 <;> rfl
  | arithRm => cases b == 0x81 <;> rfl
  | jump j => cases j <;> rfl

/-! ## Bits -/

theorem fields_eq_bits (b : UInt8) :
    (ByteRole.flag b 1 = bit b 0 ∧ ByteRole.flag b 2 = bit b 1 ∧ ByteRole.flag b 8 = bit b 3) ∧
      some (Mode.ofByte b) = Mode.ofNumber? (bits b 6 2) ∧ ByteRole.lowField b = bits b 0 3 ∧
      ByteRole.middleField b = bits b 3 3 ∧ Opcode.ofGroup b = (arithmetic? b).getD .unset := by
  revert b
  decide +kernel

theorem flag_eq_bit (b : UInt8) :
    ByteRole.flag b 1 = bit b 0 ∧ ByteRole.flag b 2 = bit b 1 ∧ ByteRole.flag b 8 = bit b 3 :=
  (fields_eq_bits b).1

theorem ofByte_eq_ofNumber? (m : UInt8) : some (Mode.ofByte m) = Mode.ofNumber? (bits m 6 2) :=
  (fields_eq_bits m).2.1

theorem lowField_eq_bits (m : UInt8) : ByteRole.lowField m = bits m 0 3 := (fields_eq_bits m).2.2.1

theorem middleField_eq_bits (m : UInt8) : ByteRole.middleField m = bits m 3 3 :=
  (fields_eq_bits m).2.2.2.1

theorem ofGroup_eq_arithmetic? (b : UInt8) : Opcode.ofGroup b = (arithmetic? b).getD .unset :=
  (fields_eq_bits b).2.2.2.2

theorem kind_bits (b : UInt8) :
    (kind? b = some .regRm → (if ByteRole.flag b 0x80 then .mov else Opcode.ofGroup b) =
      if b.toNat < 0x88 then (arithmetic? b).getD .unset else .mov) ∧
    (kind? b = some .arithRm → (b == 0x81) = (bit b 0 && b != 0x83)) := by
  revert b
  decide +kernel

/-- Which mod/rm bytes each family accepts, and in which form. -/
theorem first?_families (m : UInt8) :
    Rows.first? (familyRows .modRegRm []) m = some (.modRegRm (formOf m)) ∧
    Rows.first? (familyRows .mod000Rm []) m =
      (if bits m 3 3 = 0 then some (.mod000Rm (formOf m)) else none) ∧
    Rows.first? (familyRows .modOpRm []) m =
      if (arithmetic? m).isSome then some (.modOpRm (formOf m)) else none := by
  revert m
  decide +kernel

/-! ## Instructions -/

theorem agrees_data (wide : Bool) :
    (Rows.walk [dataBytes wide] code offset f).Agrees (data code offset wide f) := by
  rw [← spell_dataBytes]
  exact agrees_spell _ (accepts_dataBytes _) offset f

theorem agrees_rest {b : UInt8} {k : Kind} (hk : kind? b = some k) :
    (Rows.walk (k.tails b) code (offset + 1) ((k.pattern b).extract b {})).Agrees
      (rest code offset b k) := by
  obtain ⟨hw, hd, hw'⟩ := flag_eq_bit b
  cases k with
  | regRm =>
    refine Decoded.Agrees.of_eq (agrees_family (fun _ _ => BytePattern.modRegRm.inj)
      (fun _ => true) (fun m => (first?_families m).1) [] (by simp)) ?_
    refine congrArg _ (funext fun m => ?_)
    rw [← ofByte_eq_ofNumber?, ← lowField_eq_bits, ← middleField_eq_bits, ← (kind_bits b).1 hk,
      ← hw, ← hd, if_pos rfl]
    exact bind_pure _
  | movRm =>
    refine Decoded.Agrees.of_eq (agrees_family (fun _ _ => BytePattern.mod000Rm.inj)
      (fun m => bits m 3 3 = 0) (fun m => by simpa using (first?_families m).2.1) _
      (accepts_dataBytes _)) ?_
    refine congrArg _ (funext fun m => ?_)
    simp only [spell_dataBytes, decide_eq_true_eq]
    rw [← ofByte_eq_ofNumber?, ← lowField_eq_bits, ← hw]
    rfl
  | movReg =>
    refine Decoded.Agrees.of_eq (agrees_data _) ?_
    rw [rest, ← lowField_eq_bits, ← hw']
    rfl
  | movAcc =>
    refine Decoded.Agrees.of_eq (agrees_spell _ (accepts_dispBytes .direct) _ _) ?_
    rw [rest, ← hw, ← hd]
    rfl
  | arithRm =>
    refine Decoded.Agrees.of_eq (agrees_family (fun _ _ => BytePattern.modOpRm.inj)
      (fun m => (arithmetic? m).isSome) (fun m => (first?_families m).2.2) _
      (accepts_dataBytes _)) ?_
    refine congrArg _ (funext fun m => ?_)
    simp only [spell_dataBytes, (kind_bits b).2 hk]
    rw [← ofByte_eq_ofNumber?, ← lowField_eq_bits, ← hw, ← hd]
    have hg := ofGroup_eq_arithmetic? m
    rcases ha : arithmetic? m with _ | op
    · rfl
    · rw [ha, Option.getD_some] at hg
      rw [← hg]
      rfl
  | arithAcc =>
    refine Decoded.Agrees.of_eq (agrees_data _) ?_
    rw [rest, ← ofGroup_eq_arithmetic?, ← hw]
    rfl
  | jump j =>
    exact agrees_spell _ (accepts_dispBytes .disp8) _ _

/-- **Rows decode as the textbook does.** -/
theorem walk_table_agrees (code : Array UInt8) (offset : Nat) :
    (Rows.walk (Encoding.table.map (·.steps)) code offset {}).Agrees (decode code offset) := by
  refine agrees_fetch (by decide) fun b => ?_
  rw [first?_table]
  rcases hk : kind? b with _ | k
  · rfl
  · simp only [Option.map_some, after_pattern]
    exact agrees_rest hk

end Textbook

/-! ## The subset -/

namespace Trie

/-- **Decoding succeeds as the textbook does**, with the same fields and the same end. -/
theorem decode_standard_ok_iff {code : Array UInt8} {offset : Nat} {f : Fields} {stop : Int} :
    standard.decode code offset {} = .ok ⟨f, .ok stop⟩ ↔
      ∃ n : Nat, stop = n ∧ Textbook.decode code offset = .ok (f, n) := by
  have h := Textbook.walk_table_agrees code offset
  rw [represents_standard.decode_eq]
  rcases hd : Textbook.decode code offset with e | ⟨g, n⟩
  · rw [hd] at h
    constructor
    · intro he
      rw [Except.ok.inj he] at h
      exact absurd h (by simp [Decoded.Agrees])
    · rintro ⟨n, -, hn⟩
      exact absurd hn (by simp)
  · rw [hd] at h
    rw [h]
    simp only [Except.ok.injEq, Decoded.mk.injEq, Prod.mk.injEq]
    constructor
    · rintro ⟨rfl, rfl⟩
      exact ⟨n, rfl, rfl, rfl⟩
    · rintro ⟨n, rfl, rfl, rfl⟩
      exact ⟨rfl, rfl⟩

/-- **The trie of the subset decodes as the textbook does**, whatever the code and the offset: the
same fields and the same end, or the same error. -/
theorem decode_standard_agrees (code : Array UInt8) (offset : Nat) :
    ∃ t d, build Encoding.table = .ok t ∧ t.decode code offset {} = .ok d ∧
      d.Agrees (Textbook.decode code offset) := by
  refine ⟨standard, _, build_table, represents_standard.decode_eq code offset {}, ?_⟩
  exact Textbook.walk_table_agrees code offset

end Trie

end Micro8086
