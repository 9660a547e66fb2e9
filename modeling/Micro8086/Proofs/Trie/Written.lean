import Micro8086.Proofs.Trie.Shadowed

/-!
# Fields that decoding writes

What decoding finds does not depend on the fields that it is given. It writes the fields of the patterns
that it follows, by the bytes that it reads, and it leaves all other fields as they were, also when it
fails.

* `Field`, `Fields.SameAt`: the twelve fields, and records with the same content of one;
* `ByteRole.spells`: the fields that a byte of a role spells;
* `Fields.sameAt_extract_of_notMem`, `Fields.SameAt.extract`: what one byte writes;
* `spell`, `Field.written`: what the bytes of an instruction write;
* `Trie.exists_walkAlong`: the walk is the same for any fields;
* **`Trie.decode_writes`**: what decoding writes into any two records.
-/

namespace Micro8086

/-- The fields of an instruction, by name. -/
inductive Field where
  | opcode | shape | mode | d | w | s | reg | rm | dispLo | dispHi | dataLo | dataHi
  deriving DecidableEq

/-- The two records have the same content of a field. -/
def Fields.SameAt (f g : Fields) : Field → Prop
  | .opcode => f.opcode = g.opcode
  | .shape => f.shape = g.shape
  | .mode => f.mode = g.mode
  | .d => f.d = g.d
  | .w => f.w = g.w
  | .s => f.s = g.s
  | .reg => f.reg = g.reg
  | .rm => f.rm = g.rm
  | .dispLo => f.dispLo = g.dispLo
  | .dispHi => f.dispHi = g.dispHi
  | .dataLo => f.dataLo = g.dataLo
  | .dataHi => f.dataHi = g.dataHi

/-- The fields that a byte of this role spells. -/
def ByteRole.spells : ByteRole → List Field
  | .headRegRm => [.opcode, .shape, .d, .w]
  | .modRegRm => [.mode, .rm, .reg]
  | .headImmedRmMov => [.opcode, .shape, .w]
  | .modRm => [.mode, .rm]
  | .headImmedRegMov => [.opcode, .shape, .w, .reg]
  | .headAccMem => [.opcode, .shape, .d, .w, .reg]
  | .headImmedRmArith => [.shape, .s, .w]
  | .modOpRm => [.mode, .rm, .opcode]
  | .headImmedAcc => [.opcode, .shape, .d, .w, .reg]
  | .headJump _ => [.opcode, .shape]
  | .dispLo => [.dispLo]
  | .dispHi => [.dispHi]
  | .dataLo => [.dataLo]
  | .dataHi => [.dataHi]

/-! ## One byte -/

namespace Fields

variable {f g h : Fields} {x : Field} {role : ByteRole}

theorem SameAt.refl (f : Fields) (x : Field) : f.SameAt f x := by cases x <;> rfl

theorem SameAt.symm (hfg : f.SameAt g x) : g.SameAt f x := by cases x <;> exact Eq.symm hfg

theorem SameAt.trans (hfg : f.SameAt g x) (hgh : g.SameAt h x) : f.SameAt h x := by
  cases x <;> exact Eq.trans hfg hgh

theorem sameAt_extract_of_notMem (hx : x ∉ role.spells) (byte : UInt8) (f : Fields) :
    (role.extract byte f).SameAt f x := by
  cases role <;> cases x <;> first | rfl | simp [ByteRole.spells] at hx

theorem SameAt.extract (hx : x ∈ role.spells ∨ f.SameAt g x) (byte : UInt8) :
    (role.extract byte f).SameAt (role.extract byte g) x := by
  by_cases hmem : x ∈ role.spells
  · cases role <;> cases x <;> first | rfl | simp [ByteRole.spells] at hmem
  · have hfg := hx.resolve_left hmem
    exact (sameAt_extract_of_notMem hmem byte f).trans
      (hfg.trans (sameAt_extract_of_notMem hmem byte g).symm)

end Fields

/-! ## The bytes of an instruction -/

/-- The fields with those that bytes spell, each by its pattern. -/
def spell : List BytePattern → List UInt8 → Fields → Fields
  | p :: ps, b :: bs, f => spell ps bs (p.extract b f)
  | _, _, f => f

/-- The fields that are written where the patterns `ps` are followed. -/
def Field.written (ps : List BytePattern) : List Field := ps.flatMap fun p => p.role.spells

section Spell

variable {ps : List BytePattern} {bs : List UInt8} {f g : Fields} {x : Field}

theorem sameAt_spell_of_notMem (hx : x ∉ Field.written ps) (bs : List UInt8) (f : Fields) :
    (spell ps bs f).SameAt f x := by
  induction ps generalizing bs f with
  | nil => exact .refl f x
  | cons p ps ih =>
    rcases bs with _ | ⟨b, bs⟩
    · exact .refl f x
    · rw [Field.written, List.flatMap_cons, List.mem_append, not_or] at hx
      exact (ih hx.2 bs (p.extract b f)).trans (Fields.sameAt_extract_of_notMem hx.1 b f)

theorem Fields.SameAt.spell (h : f.SameAt g x) (ps : List BytePattern) (bs : List UInt8) :
    (spell ps bs f).SameAt (spell ps bs g) x := by
  induction ps generalizing bs f g with
  | nil => exact h
  | cons p ps ih =>
    rcases bs with _ | ⟨b, bs⟩
    · exact h
    · exact ih (.extract (.inr h) b) bs

theorem sameAt_spell (hx : x ∈ Field.written ps) (hlen : bs.length = ps.length) (f g : Fields) :
    (spell ps bs f).SameAt (spell ps bs g) x := by
  induction ps generalizing bs f g with
  | nil => cases hx
  | cons p ps ih =>
    rcases bs with _ | ⟨b, bs⟩
    · cases hlen
    · rw [Field.written, List.flatMap_cons, List.mem_append] at hx
      rcases hx with hx | hx
      · exact Fields.SameAt.spell (.extract (.inl hx) b) ps bs
      · exact ih hx (Nat.succ.inj hlen) _ _

end Spell

/-! ## Walks -/

namespace Trie

/-- **A walk is the same for any fields**: its edges, its bytes, and how it ends. -/
theorem exists_walkAlong (t : Trie) (code : Array UInt8) (i offset : Nat) :
    ∃ (w : List (Nat × Edge)) (bs : List UInt8) (result : Except DecodeError Int),
      bs <+: code.toList.drop offset ∧ bs.length = w.length ∧
      ∀ f, t.walkAlong code i offset f = (⟨spell (patterns w) bs f, result⟩, w) := by
  by_cases hterm : (t.node i).isTerminal
  · refine ⟨[], [], .ok offset, List.nil_prefix, rfl, fun f => ?_⟩
    rw [walkAlong_of_isTerminal hterm]
    rfl
  by_cases ho : offset < code.size
  case neg =>
    refine ⟨[], [], .error (.truncated offset code.size), List.nil_prefix, rfl, fun f => ?_⟩
    rw [walkAlong_of_le hterm (by omega)]
    rfl
  have hat := byteAt_natCast ho
  rcases hd : (t.node i).follow? code[offset] with _ | e
  · refine ⟨[], [], .error (.noMatch offset code[offset]), List.nil_prefix, rfl, fun f => ?_⟩
    rw [walkAlong_of_none hterm (by omega) (by rwa [hat]), hat]
    rfl
  · obtain ⟨w, bs, result, hbs, hlen, hw⟩ := exists_walkAlong t code e.child (offset + 1)
    have hdrop : code.toList.drop offset = code[offset] :: code.toList.drop (offset + 1) :=
      List.drop_eq_getElem_cons (by simpa using ho)
    refine ⟨(i, e) :: w, code[offset] :: bs, result, ?_, congrArg Nat.succ hlen, fun f => ?_⟩
    · rw [hdrop]
      exact List.cons_prefix_cons.mpr ⟨rfl, hbs⟩
    · have hrest := hw (e.pattern.extract code[offset] f)
      push_cast at hrest
      rw [walkAlong_of_some hterm (by omega) (by rwa [hat]), hat, hrest]
      rfl
termination_by code.size - offset

/-- **What decoding writes.** Into any two records it decodes with the same result. The patterns that it
follows say which fields are written, and these are the same in both records afterwards, spelled by
the bytes that were read; all other fields are as they were before. So what is decoded into a new
record is spelled by these bytes alone. -/
theorem decode_writes (t : Trie) (code : Array UInt8) (offset : Nat) :
    ∃ (w : List (Nat × Edge)) (bs : List UInt8) (result : Except DecodeError Int),
      bs <+: code.toList.drop offset ∧ bs.length = w.length ∧
      (∀ f, (t.walkAlong code root offset f).2 = w) ∧
      (∀ f g, ∃ d d', t.decode code offset f = .ok d ∧ t.decode code offset g = .ok d' ∧
        d.result = result ∧ d'.result = result ∧
        ∀ x,
          (x ∈ Field.written (patterns w) ∧ d.fields.SameAt d'.fields x ∧
            d.fields.SameAt (spell (patterns w) bs {}) x) ∨
          (x ∉ Field.written (patterns w) ∧ d.fields.SameAt f x ∧ d'.fields.SameAt g x)) ∧
      t.decode code offset {} = .ok ⟨spell (patterns w) bs {}, result⟩ := by
  obtain ⟨w, bs, result, hbs, hlen, hw⟩ := exists_walkAlong t code root offset
  have hdecode (f : Fields) :
      t.decode code offset f = .ok ⟨spell (patterns w) bs f, result⟩ := by
    rw [decode, if_neg (by omega), ← fst_walkAlong, hw]
  have hlen' : bs.length = (patterns w).length := by rw [hlen, patterns, List.length_map]
  refine ⟨w, bs, result, hbs, hlen, fun f => by rw [hw], fun f g => ?_, hdecode {}⟩
  refine ⟨_, _, hdecode f, hdecode g, rfl, rfl, fun x => ?_⟩
  by_cases hx : x ∈ Field.written (patterns w)
  · exact .inl ⟨hx, sameAt_spell hx hlen' f g, sameAt_spell hx hlen' f {}⟩
  · exact .inr ⟨hx, sameAt_spell_of_notMem hx bs f, sameAt_spell_of_notMem hx bs g⟩

end Trie

end Micro8086
