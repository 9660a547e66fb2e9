import Mathlib.Data.List.ReduceOption
import Micro8086.Proofs.Instruction.Decode

/-!
# Encoding

The fields of an instruction keep every bit of its bytes: they can be spelled out again.

* `Fields.encode`: the bytes that given fields spell;
* `Instruction.encode_fields`: for the fields of an instruction these are its own bytes;
* **`Fields.encode_of_decode`**: what has been decoded encodes to the bytes it was decoded from, and
  decodes from them again.
-/

namespace Micro8086

/-- A number as a byte. -/
def byteOf (v : Int) : UInt8 := .ofNat v.toNat

/-- A number as three bits, `0` when there is none. -/
def threeBits (v : Option Int) : Fin 8 := Fin.ofNat 8 (v.getD 0).toNat

/-- The arithmetic operation of an opcode. -/
def Opcode.alu? : Opcode → Option Alu
  | .add => some .add
  | .sub => some .sub
  | .cmp => some .cmp
  | _ => none

namespace Fields

/-- The first byte that fields spell, unless they are not those of an instruction. -/
def head? (f : Fields) : Option Head :=
  match f.shape with
  | .regRm =>
    some (.regRm (match f.opcode.alu? with | none => .mov | some op => .alu op) f.d f.w)
  | .accMem => some (.movAcc f.d f.w)
  | .immedReg =>
    some (match f.opcode.alu? with
      | none => .movReg f.w (threeBits f.reg)
      | some op => .arithAcc op f.w)
  | .immedRmMov => some (.movRm f.w)
  | .immedRmArith => some (.arithRm f.s f.w)
  | .jump => match f.opcode with
    | .jump j => some (.jump j)
    | _ => none
  | .unset => none

/-- The middle bits of the mod/rm byte. -/
def middle (f : Fields) : Fin 8 :=
  match f.shape with
  | .immedRmArith => (f.opcode.alu?.getD .add).group
  | _ => threeBits f.reg

/-- The mod/rm byte, if there is one. -/
def modRm? (f : Fields) : Option UInt8 := f.mode.map fun mode => modRm mode f.middle (threeBits f.rm)

/-- The numbers at the end. -/
def numbers (f : Fields) : List Int := [f.dispLo, f.dispHi, f.dataLo, f.dataHi].reduceOption

/-- The bytes that fields spell. -/
def encode (f : Fields) : List UInt8 :=
  match f.head? with
  | none => []
  | some head => head.byte :: (f.modRm?.toList ++ f.numbers.map byteOf)

end Fields

theorem threeBits_val (i : Fin 8) : threeBits (some ((i : Nat) : Int)) = i := by
  revert i
  decide

theorem byteOf_toNat (b : UInt8) : byteOf (b.toNat : Int) = b := by
  rw [byteOf, Int.toNat_natCast, UInt8.ofNat_toNat]

theorem map_byteOf_byteField {bs : List UInt8} (hle : bs.length ≤ 2) :
    ([byteField bs 0, byteField bs 1].reduceOption).map byteOf = bs := by
  match bs with
  | [] => rfl
  | [lo] => simp [byteField, List.reduceOption, byteOf_toNat]
  | [lo, hi] => simp [byteField, List.reduceOption, byteOf_toNat]
  | _ :: _ :: _ :: _ => simp at hle

theorem map_byteOf_numbers {f : Fields} (disp data : List UInt8) (hdisp : disp.length ≤ 2)
    (hdata : data.length ≤ 2)
    (hf : [f.dispLo, f.dispHi, f.dataLo, f.dataHi] =
      [byteField disp 0, byteField disp 1] ++ [byteField data 0, byteField data 1]) :
    f.numbers.map byteOf = disp ++ data := by
  rw [Fields.numbers, hf, List.reduceOption_append, List.map_append, map_byteOf_byteField hdisp,
    map_byteOf_byteField hdata]

theorem Alu.alu?_opcode (op : Alu) : op.opcode.alu? = some op := by cases op <;> rfl

theorem Instruction.head?_fields (i : Instruction) : i.fields.head? = some i.head := by
  cases i with
  | regRm op d w reg rm =>
    rcases op with _ | op
    · rfl
    · cases op <;> rfl
  | movReg w reg data =>
    change some (Head.movReg w (threeBits (some _))) = some (Head.movReg w reg)
    rw [threeBits_val]
  | arithAcc op w data => cases op <;> rfl
  | _ => rfl

/-- **The fields of an instruction spell its bytes.** -/
theorem Instruction.encode_fields (i : Instruction) : i.fields.encode = i.bytes := by
  rw [Fields.encode, i.head?_fields, bytes]
  refine congrArg (List.cons i.head.byte) ?_
  cases i with
  | regRm op d w reg rm =>
    rw [map_byteOf_numbers rm.disp [] rm.length_disp_le (Nat.zero_le 2) rfl, List.append_nil]
    change modRm rm.mode (threeBits (some _)) (threeBits (some _)) :: rm.disp = _
    rw [threeBits_val, threeBits_val]
    rfl
  | movRm w rm data hl =>
    rw [map_byteOf_numbers rm.disp data rm.length_disp_le (hl ▸ dataSize_le w) rfl]
    change modRm rm.mode (threeBits none) (threeBits (some _)) :: (rm.disp ++ data) = _
    rw [threeBits_val]
    rfl
  | movReg w reg data hl =>
    exact map_byteOf_numbers [] data (Nat.zero_le 2) (hl ▸ dataSize_le w) rfl
  | movAcc d w lo hi => exact map_byteOf_numbers [lo, hi] [] (Nat.le_refl 2) (Nat.zero_le 2) rfl
  | arithRm op s w rm data hl =>
    rw [map_byteOf_numbers rm.disp data rm.length_disp_le (hl ▸ dataSize_le _) rfl]
    change modRm rm.mode ((op.opcode.alu?.getD .add).group) (threeBits (some _)) ::
      (rm.disp ++ data) = _
    rw [threeBits_val, op.alu?_opcode]
    rfl
  | arithAcc op w data hl =>
    exact map_byteOf_numbers [] data (Nat.zero_le 2) (hl ▸ dataSize_le w) rfl
  | jump j hj distance => exact map_byteOf_numbers [distance] [] (Nat.le_succ 1) (Nat.zero_le 2) rfl

/-- **Decoding loses nothing**: what has been decoded encodes to the bytes it was decoded from, decodes
from them again, and is decoded from no other bytes. -/
theorem Fields.encode_of_decode {code : Array UInt8} {offset : Nat} {f : Fields} {stop : Int}
    (h : Trie.standard.decode code offset {} = .ok ⟨f, .ok stop⟩) :
    f.encode = (code.extract offset stop.toNat).toList ∧ stop = ↑(offset + f.encode.length) ∧
      Trie.standard.decode f.encode.toArray 0 {} = .ok ⟨f, .ok f.encode.length⟩ ∧
      ∀ (code' : Array UInt8) (offset' : Nat) (stop' : Int),
        Trie.standard.decode code' offset' {} = .ok ⟨f, .ok stop'⟩ →
        code'.extract offset' stop'.toNat = code.extract offset stop.toNat := by
  have hbytes : ∀ {code : Array UInt8} {offset : Nat} {stop : Int},
      Trie.standard.decode code offset {} = .ok ⟨f, .ok stop⟩ →
      f.encode = (code.extract offset stop.toNat).toList := by
    intro code offset stop h
    obtain ⟨i, hi, rfl, rfl⟩ := Trie.decode_standard_iff.mp h
    rw [i.encode_fields, Int.toNat_natCast, hi.extract_eq]
  obtain ⟨i, hi, rfl, rfl⟩ := Trie.decode_standard_iff.mp h
  refine ⟨hbytes h, by rw [i.encode_fields], ?_, fun code' offset' stop' h' => ?_⟩
  · change Trie.standard.decode _ ((0 : Nat) : Int) {} = _
    refine Trie.decode_standard_iff.mpr ⟨i, ?_, rfl, ?_⟩
    · rw [i.encode_fields]
      exact holds_toArray i.bytes
    · rw [i.encode_fields, Nat.zero_add]
  · exact Array.toList_inj.mp ((hbytes h').symm.trans (hbytes h))

/-- A signed byte added to a word at `[bp - 2]`, behind another byte. -/
theorem Fields.encode_of_decode_signed_byte :
    let code := #[0x90, 0x83, 0x46, 0xFE, 0x05]
    let f : Fields :=
      { opcode := .add, shape := .immedRmArith, mode := some .memory8, w := true, s := true
        rm := some 6, dispLo := some 0xFE, dataLo := some 5 }
    Trie.standard.decode code (1 : Nat) {} = .ok ⟨f, .ok 5⟩ ∧
      f.encode = [0x83, 0x46, 0xFE, 0x05] := by
  intro code f
  have h : Trie.standard.decode code (1 : Nat) {} = .ok ⟨f, .ok 5⟩ :=
    Trie.decode_standard_iff.mpr
      ⟨.arithRm .add true true ⟨.memory8, 6, [0xFE], rfl⟩ [0x05] rfl,
        ⟨rfl, rfl, rfl, rfl, trivial⟩, rfl, rfl⟩
  exact ⟨h, (encode_of_decode h).1⟩

end Micro8086
