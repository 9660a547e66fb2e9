import Micro8086.Proofs.Instruction.Decode
import Micro8086.Proofs.Machine.Execute

/-!
# Footprints

An instruction that does not jump reads its two operands and the base registers that their addresses
take, and writes its destination and the flags. What it does depends on the cells that it reads
alone, and it leaves all cells that it does not write. Instructions whose cells do not meet can
therefore change places.

* `Fields.reads`, `Fields.writes`: the footprint of an instruction on a machine;
* **`Instruction.executes_congr`**: it depends on and changes nothing else;
* `Fields.Independent`: neither instruction writes what the other one reads or writes;
* **`Fields.execute_comm`**: independent instructions commute.
-/

namespace Micro8086

/-! ## Cells of an instruction -/

/-- Both bytes of a base register that may be absent. -/
def baseCells (base : Option Int) : List Cell :=
  match base.map Machine.slot? with
  | some (.ok i) => [.low i, .high i]
  | _ => []

/-- Both bytes of each base register of an operand. -/
def Operand.baseCells : Option Operand → List Cell
  | some (.mem ea) => Micro8086.baseCells ea.base1 ++ Micro8086.baseCells ea.base2
  | _ => []

/-- The cells in which an operand is; an immediate is in none. -/
def Machine.cellsOf (m : Machine) (o : Option Operand) (w : Width) : List Cell :=
  match m.locate o w with
  | .ok p => p.cells m.memory
  | .error _ => []

namespace Fields

/-- The cells that an instruction reads: those of its operands and those that their addresses take.
-/
def reads (f : Fields) (m : Machine) : List Cell :=
  [f.source.toOption.join, f.destination.toOption.join].flatMap fun o =>
    m.cellsOf o f.width ++ Operand.baseCells o

/-- The cells that an instruction writes: those of its destination, unless it only compares, and the
flags, if it is arithmetic. -/
def writes (f : Fields) (m : Machine) : List Cell :=
  (if f.opcode = .cmp then [] else m.cellsOf f.destination.toOption.join f.width) ++
    if f.opcode ∈ [Opcode.add, .sub, .cmp] then [.flags] else []

/-- Neither of two instructions writes what the other one reads or writes. -/
structure Independent (f g : Fields) (m : Machine) : Prop where
  left : ∀ c ∈ f.writes m, c ∉ g.reads m ∧ c ∉ g.writes m
  right : ∀ c ∈ g.writes m, c ∉ f.reads m ∧ c ∉ f.writes m

theorem Independent.symm {f g : Fields} {m : Machine} (h : f.Independent g m) :
    g.Independent f m := ⟨h.right, h.left⟩

end Fields

/-! ## Machines that agree -/

namespace Machine

variable {m m' : Machine} {o : Option Operand} {p : Place} {w : Width} {v : Int} {c : Cell}
  {op : Binary}

theorem baseValue_congr (hm : m.WellFormed) (hm' : m'.WellFormed) {base : Option Int}
    (h : ∀ c ∈ baseCells base, m.SameAt m' c) : m.baseValue base = m'.baseValue base := by
  rcases base with _ | k
  · rfl
  · rw [baseValue, baseValue]
    rcases hk : slot? k with fault | i
    · rfl
    · have hcells : baseCells (some k) = [.low i, .high i] := by
        rw [baseCells, Option.map_some, hk]
      rw [hcells] at h
      have hi := get_eq_of_sameAt hm hm' (h _ List.mem_cons_self)
        (h _ (List.mem_cons_of_mem _ List.mem_cons_self))
      exact congrArg Except.ok hi

theorem address_congr (hm : m.WellFormed) (hm' : m'.WellFormed) {ea : EffectiveAddress}
    (h : ∀ c ∈ Operand.baseCells (some (.mem ea)), m.SameAt m' c) :
    m.address ea = m'.address ea := by
  have hfirst := baseValue_congr hm hm' fun c hc => h c (List.mem_append_left _ hc)
  have hsecond := baseValue_congr hm hm' fun c hc => h c (List.mem_append_right _ hc)
  rw [address, address, hfirst, hsecond]

theorem locate_eq_of_baseCells (hm : m.WellFormed) (hm' : m'.WellFormed)
    (hsize : m.memory.size = m'.memory.size) (h : ∀ c ∈ Operand.baseCells o, m.SameAt m' c) :
    m.locate o w = m'.locate o w :=
  locate_congr hsize fun _ ho => address_congr hm hm' (ho ▸ h)

theorem cellsOf_eq (hp : m.locate o w = .ok p) : m.cellsOf o w = p.cells m.memory := by
  rw [cellsOf, hp]

theorem read_eq_of_cells (hm : m.WellFormed) (hm' : m'.WellFormed)
    (hsize : m.memory.size = m'.memory.size)
    (h : ∀ c ∈ m.cellsOf o w ++ Operand.baseCells o, m.SameAt m' c) :
    m.read o w = m'.read o w := by
  have hlocate : m.locate o w = m'.locate o w :=
    locate_eq_of_baseCells hm hm' hsize fun c hc => h c (List.mem_append_right _ hc)
  have hpeek : (m.locate o w).map m.peek = (m'.locate o w).map m'.peek := by
    rw [← hlocate]
    rcases hp : m.locate o w with fault | p
    · rfl
    · rw [cellsOf_eq hp] at h
      exact congrArg Except.ok
        (peek_congr hm hm' hsize fun c hc => h c (List.mem_append_left _ hc))
  rcases o with _ | v | r | ea
  · rfl
  · rfl
  · exact hpeek
  · exact hpeek

/-! ## Outcomes -/

/-- The cells that an operation writes. -/
def outcomeCells (m : Machine) (op : Binary) (p : Place) : List Cell :=
  (if op.stores then p.cells m.memory else []) ++ if op.setsFlags then [.flags] else []

theorem memory_setFlags (m : Machine) (op : Binary) (v : Int) (w : Width) :
    (m.setFlags op v w).memory = m.memory := by
  unfold setFlags
  split_ifs <;> rfl

theorem sameAt_setFlags (h : c ≠ .flags ∨ op.setsFlags = false) (v : Int) (w : Width) :
    m.SameAt (m.setFlags op v w) c := by
  unfold setFlags
  split_ifs with hs
  · cases c with
    | flags => simp [hs] at h
    | _ => rfl
  · exact SameAt.refl m c

theorem SameAt.setFlags (h : (c = .flags ∧ op.setsFlags = true) ∨ m.SameAt m' c) (v : Int)
    (w : Width) : (m.setFlags op v w).SameAt (m'.setFlags op v w) c := by
  rcases h with ⟨rfl, hs⟩ | h
  · rw [Machine.setFlags, Machine.setFlags, if_pos hs, if_pos hs]
    rfl
  · unfold Machine.setFlags
    split_ifs
    · cases c with
      | flags => rfl
      | _ => exact h
    · exact h

theorem sameAt_outcome (h : c ∉ m.outcomeCells op p) (v : Int) : m.SameAt (m.outcome op p v) c := by
  simp only [outcomeCells, List.mem_append, not_or] at h
  obtain ⟨hplace, hflags⟩ := h
  have hset : m.SameAt (m.setFlags op v p.width) c := by
    refine sameAt_setFlags ?_ v p.width
    by_cases hs : op.setsFlags = true
    · simp_all
    · simp_all
  unfold outcome store
  split_ifs with hs
  · rw [if_pos hs] at hplace
    exact hset.trans (sameAt_poke_of_notMem (by rwa [memory_setFlags]) v)
  · exact hset

theorem SameAt.outcome (hsize : m.memory.size = m'.memory.size)
    (h : c ∈ m.outcomeCells op p ∨ m.SameAt m' c) (v : Int) :
    (m.outcome op p v).SameAt (m'.outcome op p v) c := by
  have hsize' : (m.setFlags op v p.width).memory.size = (m'.setFlags op v p.width).memory.size := by
    rw [memory_setFlags, memory_setFlags, hsize]
  simp only [outcomeCells, List.mem_append] at h
  unfold Machine.outcome store
  split_ifs with hs
  · refine SameAt.poke hsize' ?_ v
    rw [if_pos hs] at h
    rcases h with (h | h) | h
    · exact Or.inl (by rwa [memory_setFlags])
    · exact Or.inr (SameAt.setFlags (Or.inl (by split_ifs at h <;> simp_all)) v p.width)
    · exact Or.inr (SameAt.setFlags (Or.inr h) v p.width)
  · rw [if_neg hs] at h
    refine SameAt.setFlags ?_ v p.width
    rcases h with (h | h) | h
    · cases h
    · exact Or.inl (by split_ifs at h <;> simp_all)
    · exact Or.inr h

end Machine

/-! ## Instructions -/

namespace Instruction

variable {i j : Instruction} {op : Binary} {src : Term} {m m' : Machine} {p : Place} {name : String}
  {v : Int} {c : Cell}

theorem Acts.reads_eq (h : i.Acts op src) (m : Machine) :
    i.fields.reads m =
      (m.cellsOf (some src.operand) i.fields.width ++ Operand.baseCells (some src.operand)) ++
        (m.cellsOf (some i.destination.operand) i.fields.width ++
          Operand.baseCells (some i.destination.operand)) := by
  rw [Fields.reads, i.source_fields, i.destination_fields, h.source_eq]
  simp [Except.toOption]

theorem Acts.writes_eq (h : i.Acts op src) (hf : m.Finds i src p name v) :
    i.fields.writes m = m.outcomeCells op p := by
  have hcells : m.cellsOf i.fields.destination.toOption.join i.fields.width = p.cells m.memory := by
    rw [i.destination_fields]
    exact Machine.cellsOf_eq hf.locate_eq
  rw [Fields.writes, hcells, h.opcode_eq, Machine.outcomeCells]
  congr 1
  · by_cases hs : op.stores = true
    · rw [if_pos hs, if_neg (Binary.opcode_ne_cmp.mpr hs)]
    · rw [if_neg hs, if_pos (by_contra fun hne => hs (Binary.opcode_ne_cmp.mp hne))]
  · simp only [Binary.opcode_mem]

theorem Acts.finds_congr (h : i.Acts op src) (hf : m.Finds i src p name v) (hm : m.WellFormed)
    (hm' : m'.WellFormed) (hsize : m.memory.size = m'.memory.size)
    (hreads : ∀ c ∈ i.fields.reads m, m.SameAt m' c) :
    m'.Finds i src p name v ∧ m.peek p = m'.peek p := by
  rw [h.reads_eq] at hreads
  have hsrc := fun c hc => hreads c (List.mem_append_left _ hc)
  have hdst := fun c hc => hreads c (List.mem_append_right _ hc)
  have hbase := fun c hc => hdst c (List.mem_append_right _ hc)
  have hlocate : m'.locate (some i.destination.operand) i.fields.width = .ok p := by
    rw [← Machine.locate_eq_of_baseCells hm hm' hsize hbase, hf.locate_eq]
  refine ⟨⟨hlocate, ?_, ?_⟩, ?_⟩
  · rw [← Machine.read_eq_of_cells hm hm' hsize hsrc, hf.read_eq]
  · rw [← hf.targetName_eq]
    exact (Machine.targetName_congr fun ea hea => Machine.address_congr hm hm' (hea ▸ hbase)).symm
  · rw [Machine.cellsOf_eq hf.locate_eq] at hdst
    exact Machine.peek_congr hm hm' hsize fun c hc => hdst c (List.mem_append_left _ hc)

/-- On the machine, the instruction reports an effect and leaves the machine `n`. -/
structure Executes (i : Instruction) (m n : Machine) (cursor : Int) (e : Effect) : Prop where
  execute_eq : i.fields.execute m cursor = (n, .ok e)
  cursor_eq : e.cursor = cursor
  before_eq : e.before = m.flags
  after_eq : e.after = n.flags
  keeps : m.Keeps n
  /-- All cells that are not written are as before. -/
  frame : ∀ c, c ∉ i.fields.writes m → m.SameAt n c

/-- **An instruction depends on the cells that it reads alone**, and leaves those as they are that
it does not write. -/
theorem executes_congr (hi : i.fields.shape ≠ .jump) (hm : m.WellFormed) (hm' : m'.WellFormed)
    (hsize : m.memory.size = m'.memory.size) (hreads : ∀ c ∈ i.fields.reads m, m.SameAt m' c)
    (cursor cursor' : Int) :
    ∃ n n' e e', i.Executes m n cursor e ∧ i.Executes m' n' cursor' e' ∧
      i.fields.writes m' = i.fields.writes m ∧
      e' = { e with cursor := cursor', before := m'.flags, after := n'.flags } ∧
      ∀ c, c ∈ i.fields.writes m ∨ m.SameAt m' c → n.SameAt n' c := by
  obtain ⟨op, src, h⟩ := exists_acts hi
  obtain ⟨p, name, v, hf⟩ := h.exists_finds hm
  obtain ⟨hf', hpeek⟩ := h.finds_congr hf hm hm' hsize hreads
  have hwrites := h.writes_eq hf
  have hwrites' := h.writes_eq hf'
  have hcells : m'.outcomeCells op p = m.outcomeCells op p := by
    rw [Machine.outcomeCells, Machine.outcomeCells, Place.cells_congr hsize]
  refine ⟨_, _, _, _,
    ⟨hf.execute_eq h cursor, rfl, rfl, rfl, hm.keeps_outcome _ _ _, fun c hc => ?_⟩,
    ⟨hf'.execute_eq h cursor', rfl, rfl, rfl, hm'.keeps_outcome _ _ _, fun c hc => ?_⟩,
    ?_, ?_, fun c hc => ?_⟩
  · exact Machine.sameAt_outcome (hwrites ▸ hc) _
  · exact Machine.sameAt_outcome (hwrites' ▸ hc) _
  · rw [hwrites, hwrites', hcells]
  · rw [hpeek]
    simp only [Machine.report, hpeek]
  · rw [← hpeek]
    exact Machine.SameAt.outcome hsize (hwrites ▸ hc) _

theorem exists_executes (hi : i.fields.shape ≠ .jump) (hm : m.WellFormed) (cursor : Int) :
    ∃ n e, i.Executes m n cursor e := by
  obtain ⟨n, -, e, -, h, -⟩ := executes_congr hi hm hm rfl (fun c _ => .refl m c) cursor cursor
  exact ⟨n, e, h⟩

theorem Executes.unique {n n' : Machine} {cursor : Int} {e e' : Effect}
    (h : i.Executes m n cursor e) (h' : i.Executes m n' cursor e') : n = n' ∧ e = e' := by
  have heq := h.execute_eq.symm.trans h'.execute_eq
  exact ⟨congrArg Prod.fst heq, Except.ok.inj (congrArg Prod.snd heq)⟩

/-- Independent instructions end on the same machine in either order. -/
theorem executes_comm (hi : i.fields.shape ≠ .jump) (hj : j.fields.shape ≠ .jump)
    (hm : m.WellFormed) (h : i.fields.Independent j.fields m) (c₁ c₂ c₃ c₄ : Int) :
    ∃ m₁ m₂ n e₁ e₂ e₃ e₄,
      (i.Executes m m₁ c₁ e₁ ∧ j.Executes m₁ n c₂ e₂) ∧
      (j.Executes m m₂ c₃ e₃ ∧ i.Executes m₂ n c₄ e₄) ∧
      (e₄.change = e₁.change ∧ e₄.result = e₁.result) ∧
      e₂.change = e₃.change ∧ e₂.result = e₃.result := by
  -- the second instruction leaves what the first one reads, and the first what the second reads
  obtain ⟨m₂, e₃, hsecond⟩ := exists_executes hj hm c₃
  have hreads : ∀ c ∈ i.fields.reads m, m.SameAt m₂ c := fun c hc =>
    hsecond.frame c fun hw => (h.right c hw).1 hc
  obtain ⟨m₁, n, e₁, e₄, hfirst, hlast, hwrites, he₄, hsame⟩ :=
    executes_congr hi hm hsecond.keeps.wellFormed hsecond.keeps.size.symm hreads c₁ c₄
  have hreads' : ∀ c ∈ j.fields.reads m, m.SameAt m₁ c := fun c hc =>
    hfirst.frame c fun hw => (h.left c hw).1 hc
  obtain ⟨m₂', n', e₃', e₂, hsecond', hlast', hwrites', he₂, hsame'⟩ :=
    executes_congr hj hm hfirst.keeps.wellFormed hfirst.keeps.size.symm hreads' c₃ c₂
  obtain ⟨rfl, rfl⟩ := hsecond.unique hsecond'
  -- each cell is written by at most one of the two, and the other one leaves it alone
  have hn : n = n' := by
    refine Machine.eq_of_sameAt hlast.keeps.wellFormed hlast'.keeps.wellFormed fun c => ?_
    by_cases hc : c ∈ j.fields.writes m
    · have hleft : m₂.SameAt n c := hlast.frame c (hwrites ▸ (h.right c hc).2)
      exact hleft.symm.trans (hsame' c (Or.inl hc))
    · have hright : m₁.SameAt n' c := hlast'.frame c (hwrites' ▸ hc)
      have hleft : m₁.SameAt n c := hsame c (Or.inr (hsecond.frame c hc))
      exact hleft.symm.trans hright
  subst hn
  subst he₂ he₄
  exact ⟨m₁, m₂, n, e₁, _, e₃, _, ⟨hfirst, hlast'⟩, ⟨hsecond, hlast⟩, ⟨rfl, rfl⟩, rfl, rfl⟩

end Instruction

namespace Fields

variable {code code' : Array UInt8} {offset offset' : Nat} {f g : Fields} {stop stop' : Int}
  {m : Machine}

/-- **Independent instructions commute.** Two instructions that are decoded and do not jump, and of
which neither writes what the other one reads or writes, lead to the same machine in either order,
and each of them reports the same change and result. -/
theorem execute_comm (hf : Trie.standard.decode code offset {} = .ok ⟨f, .ok stop⟩)
    (hg : Trie.standard.decode code' offset' {} = .ok ⟨g, .ok stop'⟩)
    (hshape : f.shape ≠ .jump) (hshape' : g.shape ≠ .jump) (hm : m.WellFormed)
    (h : f.Independent g m) (c₁ c₂ c₃ c₄ : Int) :
    ∃ m₁ m₂ n e₁ e₂ e₃ e₄,
      (f.execute m c₁ = (m₁, .ok e₁) ∧ g.execute m₁ c₂ = (n, .ok e₂)) ∧
      (g.execute m c₃ = (m₂, .ok e₃) ∧ f.execute m₂ c₄ = (n, .ok e₄)) ∧
      (e₄.change = e₁.change ∧ e₄.result = e₁.result) ∧
      e₂.change = e₃.change ∧ e₂.result = e₃.result := by
  obtain ⟨i, -, rfl, -⟩ := Trie.decode_standard_iff.mp hf
  obtain ⟨j, -, rfl, -⟩ := Trie.decode_standard_iff.mp hg
  obtain ⟨m₁, m₂, n, e₁, e₂, e₃, e₄, ⟨h₁, h₂⟩, ⟨h₃, h₄⟩, hreports⟩ :=
    Instruction.executes_comm hshape hshape' hm h c₁ c₂ c₃ c₄
  exact ⟨m₁, m₂, n, e₁, e₂, e₃, e₄, ⟨h₁.execute_eq, h₂.execute_eq⟩,
    ⟨h₃.execute_eq, h₄.execute_eq⟩, hreports⟩

/-- Adding to one half of `ax` and moving to its other half. -/
theorem execute_comm_halves :
    let m := Machine.blank 2
    let i : Instruction := .arithAcc .add false [5] rfl
    let j : Instruction := .movReg false 4 [7] rfl
    m.WellFormed ∧ i.fields.Independent j.fields m ∧ ∃ m₁ m₂ n e₁ e₂ e₃ e₄,
      (i.fields.execute m 2 = (m₁, .ok e₁) ∧ j.fields.execute m₁ 4 = (n, .ok e₂)) ∧
      (j.fields.execute m 2 = (m₂, .ok e₃) ∧ i.fields.execute m₂ 4 = (n, .ok e₄)) ∧
      (e₄.change = e₁.change ∧ e₄.result = e₁.result) ∧
      e₂.change = e₃.change ∧ e₂.result = e₃.result := by
  intro m i j
  have hm : m.WellFormed := ⟨by decide, by decide⟩
  have h : i.fields.Independent j.fields m := ⟨by decide +kernel, by decide +kernel⟩
  have hi : Trie.standard.decode i.bytes.toArray (0 : Nat) {} = .ok ⟨i.fields, .ok 2⟩ :=
    Trie.decode_standard_iff.mpr ⟨i, holds_toArray i.bytes, rfl, rfl⟩
  have hj : Trie.standard.decode j.bytes.toArray (0 : Nat) {} = .ok ⟨j.fields, .ok 2⟩ :=
    Trie.decode_standard_iff.mpr ⟨j, holds_toArray j.bytes, rfl, rfl⟩
  exact ⟨hm, h, execute_comm hi hj (by decide) (by decide) hm h 2 4 2 4⟩

end Fields

end Micro8086
