import Mathlib.Data.List.Infix
import Micro8086.CommandLine.Files

/-!
# What the operations on files do

Files are seen through what is found at each place. Opening a log only adds to that; a file that is
written changes itself alone, and what it holds has no part in where paths lead.

* `Path.place`: the place that a path leads to, where it can be followed;
* `Files.file?`: what the file at a place holds; `Files.file?_set`, `Files.file?_extend`;
* `Files.Grows`: what was found stays; **`Files.openLog_eq_ok`**;
* `Files.SameTree`: the same places are taken; `Files.SameTree.resolve_eq`;
* `Files.attempt_bind_eq_ok_iff`: an operation at the end of a path; `Files.read_eq_ok_iff`,
  `Files.write_eq_ok_iff`;
* `Files.Inserts`: one file alone has further records in its middle; `Files.Inserts.set`.
-/

namespace Micro8086

/-- The place that a path leads to. -/
def Path.place (p : Path) : List String := p.names.foldl Files.step (Files.base p)

/-- A content with records behind it. -/
def Content.append (c : Content) (records : Array Record) : Content :=
  { c with records := c.records ++ records }

namespace Entry

/-- What a file holds. -/
def content? : Entry → Option Content
  | .directory => none
  | .file c => some c

/-- The entry, with nothing in it. -/
def bare : Entry → Entry
  | .directory => .directory
  | .file _ => .file {}

end Entry

@[simp] theorem Content.append_empty (c : Content) : c.append #[] = c := by simp [append]

theorem Content.append_append (c : Content) (rs rs' : Array Record) :
    c.append (rs ++ rs') = (c.append rs).append rs' := by simp [append, Array.append_assoc]

namespace Files

variable (fs : Files) (place q : List String) (e e' : Entry)

/-- What the file at a place holds. -/
def file? : Option Content := (fs.found? place).bind Entry.content?

/-! ## Putting an entry at a place -/

theorem lookup_map_put (l : List (List String × Entry)) :
    (l.map fun (other, old) => (other, if other = place then e else old)).lookup q =
      if q = place then (l.lookup q).map fun _ => e else l.lookup q := by
  induction l with
  | nil => simp
  | cons x l ih =>
    obtain ⟨other, old⟩ := x
    rw [List.map_cons, List.lookup_cons, List.lookup_cons, ih]
    by_cases hq : q = other
    · subst hq
      simp only [beq_self_eq_true]
      split_ifs <;> rfl
    · rw [beq_eq_false_iff_ne.mpr hq]

theorem lookup_isSome_iff (l : List (List String × Entry)) :
    l.any (fun (other, _) => other = place) ↔ (l.lookup place).isSome := by
  induction l with
  | nil => simp
  | cons x l ih =>
    obtain ⟨other, old⟩ := x
    by_cases h : place = other
    · simp [h]
    · rw [List.lookup_cons, beq_eq_false_iff_ne.mpr h, List.any_cons, ← ih]
      simp [Ne.symm h]

theorem lookup_set :
    (fs.set place e).entries.lookup q = if q = place then some e else fs.entries.lookup q := by
  unfold set
  split_ifs with hany hq hq
  · obtain ⟨old, hold⟩ := Option.isSome_iff_exists.mp ((lookup_isSome_iff place _).mp hany)
    rw [lookup_map_put, if_pos hq, hq, hold]
    rfl
  · rw [lookup_map_put, if_neg hq]
  · have hnone : fs.entries.lookup place = none := by
      rw [← Option.not_isSome_iff_eq_none, ← lookup_isSome_iff]
      exact hany
    rw [List.lookup_append, hq, hnone]
    simp
  · rw [List.lookup_append, List.lookup_cons, beq_eq_false_iff_ne.mpr hq]
    simp

theorem any_set (pred : List String → Bool) :
    ((fs.set place e).entries.any fun (other, _) => pred other) =
      ((fs.entries.any fun (other, _) => pred other) || pred place) := by
  unfold set
  split_ifs with hany
  · obtain ⟨⟨other, old⟩, hmem, hother⟩ := List.any_eq_true.mp hany
    obtain rfl : other = place := by simpa using hother
    rw [List.any_map]
    by_cases hp : pred other
    · rw [hp, Bool.or_true, List.any_eq_true]
      exact ⟨_, hmem, hp⟩
    · simp [hp, Function.comp_def]
  · simp

@[simp] theorem time_set : (fs.set place e).time = fs.time := by
  unfold set
  split_ifs <;> rfl

@[simp] theorem found?_set_self : (fs.set place e).found? place = some e := by
  simp [found?, lookup_set]

variable {fs place q e}

theorem found?_eq_none_iff :
    fs.found? q = none ↔ isOutward q = false ∧ ∀ x ∈ fs.entries, ¬q <+: x.1 := by
  unfold found?
  cases h : fs.entries.lookup q with
  | none => simp [List.isPrefixOf_iff_prefix]
  | some old =>
    obtain ⟨l, l', hl, -⟩ := List.lookup_eq_some_iff.mp h
    simp only [reduceCtorEq, false_iff, not_and, not_forall, not_not]
    exact fun _ => ⟨(q, old), by simp [hl], List.prefix_refl q⟩

theorem found?_ne_none_of_below (hq : q <+: place) (h : fs.found? place ≠ none) :
    fs.found? q ≠ none := by
  contrapose! h
  rw [found?_eq_none_iff] at h ⊢
  obtain ⟨hout, hbelow⟩ := h
  refine ⟨?_, fun x hx hp => hbelow x hx (hq.trans hp)⟩
  by_contra hplace
  rw [Bool.not_eq_false, isOutward, List.all_eq_true] at hplace
  rw [isOutward, List.all_eq_false] at hout
  obtain ⟨n, hn, hne⟩ := hout
  exact hne (hplace n (hq.subset hn))

theorem found?_set (hne : q ≠ place) :
    (fs.set place e).found? q =
      (fs.found? q).or (if q <+: place then some .directory else none) := by
  unfold found?
  rw [lookup_set, if_neg hne, any_set fs place e fun other => q.isPrefixOf other, ← Bool.or_assoc]
  cases fs.entries.lookup q with
  | some old => rfl
  | none =>
    have hp : q.isPrefixOf place = decide (q <+: place) := by
      rw [Bool.eq_iff_iff, List.isPrefixOf_iff_prefix, decide_eq_true_iff]
    simp only [hp]
    cases isOutward q || fs.entries.any fun (other, _) => q.isPrefixOf other <;>
      by_cases h : q <+: place <;> simp [h]

theorem found?_set_of_found (hne : q ≠ place) (h : fs.found? q ≠ none) :
    (fs.set place e).found? q = fs.found? q := by
  obtain ⟨old, hold⟩ := Option.ne_none_iff_exists'.mp h
  rw [found?_set hne, hold]
  rfl

theorem found?_set_of_taken (hne : q ≠ place) (h : fs.found? place ≠ none) :
    (fs.set place e).found? q = fs.found? q := by
  by_cases hp : q <+: place
  · exact found?_set_of_found hne (found?_ne_none_of_below hp h)
  · rw [found?_set hne, if_neg hp, Option.or_none]

theorem file?_eq_some_iff {c : Content} :
    fs.file? place = some c ↔ fs.found? place = some (.file c) := by
  unfold file?
  rcases fs.found? place with _ | _ | c' <;> simp [Entry.content?]

theorem file?_eq (fs : Files) (place : List String) :
    fs.file? place = (fs.entries.lookup place).bind Entry.content? := by
  unfold file? found?
  cases fs.entries.lookup place with
  | some old => rfl
  | none => simp only; split_ifs <;> rfl

theorem file?_set : (fs.set place e).file? q = if q = place then e.content? else fs.file? q := by
  rw [file?_eq, file?_eq, lookup_set]
  split_ifs <;> rfl

/-- What was found stays. -/
structure Grows (fs fs' : Files) : Prop where
  time_eq : fs'.time = fs.time
  found?_eq : ∀ q, fs.found? q ≠ none → fs'.found? q = fs.found? q

/-- The same places are taken by files, and the same ones by directories. -/
structure SameTree (fs fs' : Files) : Prop where
  time_eq : fs'.time = fs.time
  bare_eq : ∀ q, (fs'.found? q).map Entry.bare = (fs.found? q).map Entry.bare

variable {fs' fs'' : Files} {p : Path} {names : List String}

theorem Grows.refl (fs : Files) : fs.Grows fs := ⟨rfl, fun _ _ => rfl⟩

theorem Grows.trans (h : fs.Grows fs') (h' : fs'.Grows fs'') : fs.Grows fs'' where
  time_eq := h'.time_eq.trans h.time_eq
  found?_eq q hq := by rw [h'.found?_eq q (by rwa [h.found?_eq q hq]), h.found?_eq q hq]

theorem Grows.set (h : fs.found? place = none) : fs.Grows (fs.set place e) where
  time_eq := time_set fs place e
  found?_eq q hq := found?_set_of_found (by rintro rfl; exact hq h) hq

theorem SameTree.refl (fs : Files) : fs.SameTree fs := ⟨rfl, fun _ => rfl⟩

theorem SameTree.symm (h : fs.SameTree fs') : fs'.SameTree fs :=
  ⟨h.time_eq.symm, fun q => (h.bare_eq q).symm⟩

theorem SameTree.trans (h : fs.SameTree fs') (h' : fs'.SameTree fs'') : fs.SameTree fs'' :=
  ⟨h'.time_eq.trans h.time_eq, fun q => (h'.bare_eq q).trans (h.bare_eq q)⟩

theorem SameTree.set {c : Content} (h : fs.file? place = some c) (c' : Content) :
    fs.SameTree (fs.set place (.file c')) where
  time_eq := time_set fs place _
  bare_eq q := by
    rw [file?_eq_some_iff] at h
    by_cases hq : q = place
    · rw [hq, found?_set_self, h]
      rfl
    · rw [found?_set_of_taken hq (by simp [h])]

theorem place_of_follow {place' : List String} (h : fs.follow place names = .ok place') :
    place' = names.foldl step place := by
  induction names generalizing place with
  | nil => exact (Except.ok.inj h).symm
  | cons name names ih =>
    rw [follow] at h
    split at h <;> try contradiction
    split_ifs at h
    exact ih h

theorem place_of_resolve (h : fs.resolve p = .ok place) : place = p.place := by
  unfold resolve at h
  split_ifs at h
  exact place_of_follow h

theorem Grows.follow (h : fs.Grows fs') {place' : List String}
    (hp : fs.follow place names = .ok place') : fs'.follow place names = .ok place' := by
  induction names generalizing place with
  | nil => exact hp
  | cons name names ih =>
    rw [Files.follow] at hp ⊢
    split at hp <;> try contradiction
    rename_i hentry
    split_ifs at hp with hlong
    rw [h.found?_eq place (by simp [hentry]), hentry]
    simp only [hlong, if_false]
    exact ih hp

theorem Grows.resolve (h : fs.Grows fs') (hp : fs.resolve p = .ok place) :
    fs'.resolve p = .ok place := by
  unfold Files.resolve at hp ⊢
  split_ifs at hp ⊢
  exact h.follow hp

theorem SameTree.follow_eq (h : fs.SameTree fs') (place names : List String) :
    fs'.follow place names = fs.follow place names := by
  induction names generalizing place with
  | nil => rfl
  | cons name names ih =>
    have hbare := h.bare_eq place
    rw [follow, follow]
    rcases hfs : fs.found? place with _ | _ | c <;>
      rcases hfs' : fs'.found? place with _ | _ | c' <;>
      simp_all [Entry.bare]

theorem SameTree.resolve_eq (h : fs.SameTree fs') (p : Path) : fs'.resolve p = fs.resolve p := by
  unfold resolve
  rw [h.follow_eq]

/-! ## Reading and writing -/

theorem attempt_eq_ok_iff {α : Type} {r : Except FileProblem α} {x : α} :
    attempt p r = .ok x ↔ p.holdsNul = false ∧ r = .ok x := by
  unfold attempt
  rcases r with problem | y <;> split_ifs with h <;> simp [h, Except.mapError]

theorem attempt_bind_eq_ok_iff {α : Type} {op : List String → Except FileProblem α} {x : α} :
    attempt p (fs.resolve p >>= op) = .ok x ↔
      p.holdsNul = false ∧ fs.resolve p = .ok p.place ∧ op p.place = .ok x := by
  rw [attempt_eq_ok_iff]
  refine and_congr_right fun _ => ?_
  cases hr : fs.resolve p with
  | error problem => simp [Bind.bind, Except.bind]
  | ok place =>
    obtain rfl := place_of_resolve hr
    simp [Bind.bind, Except.bind]

theorem read_eq_ok_iff {bytes : Array UInt8} :
    fs.read p = .ok bytes ↔ p.holdsNul = false ∧ fs.resolve p = .ok p.place ∧
      ∃ c, fs.file? p.place = some c ∧ bytes = c.image fs.time := by
  rw [read, attempt_bind_eq_ok_iff, file?]
  refine and_congr_right fun _ => and_congr_right fun _ => ?_
  rcases fs.found? p.place with _ | _ | c <;> simp [Entry.content?, eq_comm]

theorem SameTree.read_eq (h : fs.SameTree fs') (hfile : fs'.file? p.place = fs.file? p.place) :
    fs'.read p = fs.read p := by
  unfold read
  rw [h.resolve_eq, h.time_eq]
  cases hr : fs.resolve p with
  | error problem => rfl
  | ok place =>
    obtain rfl := place_of_resolve hr
    have hbare := h.bare_eq p.place
    unfold file? at hfile
    simp only [Bind.bind, Except.bind]
    rcases hfs : fs.found? p.place with _ | _ | c <;>
      rcases hfs' : fs'.found? p.place with _ | _ | c' <;>
      simp_all [Entry.bare, Entry.content?]

theorem file?_extend (rs : Array Record) :
    (fs.extend place rs).file? q =
      if q = place then (fs.file? q).map (·.append rs) else fs.file? q := by
  unfold extend
  split
  · rename_i c hc
    rw [file?_set]
    split_ifs with hq
    · rw [hq, file?_eq_some_iff.mpr hc]
      rfl
    · rfl
  · rename_i hno
    split_ifs with hq
    · cases hc : fs.file? q with
      | none => rfl
      | some c => exact absurd (file?_eq_some_iff.mp (hq ▸ hc)) (hno c)
    · rfl

theorem sameTree_extend (fs : Files) (place : List String) (rs : Array Record) :
    fs.SameTree (fs.extend place rs) := by
  unfold extend
  split
  · rename_i c hc
    exact SameTree.set (file?_eq_some_iff.mpr hc) _
  · exact SameTree.refl fs

/-- Directories are made. -/
structure GainsDirectories (fs fs' : Files) : Prop extends fs.Grows fs' where
  file?_eq : ∀ q, fs'.file? q = fs.file? q

theorem GainsDirectories.refl (fs : Files) : fs.GainsDirectories fs := ⟨Grows.refl fs, fun _ => rfl⟩

theorem GainsDirectories.trans (h : fs.GainsDirectories fs') (h' : fs'.GainsDirectories fs'') :
    fs.GainsDirectories fs'' :=
  ⟨h.toGrows.trans h'.toGrows, fun q => (h'.file?_eq q).trans (h.file?_eq q)⟩

theorem makeDirectory_gains (h : fs.makeDirectory p = .ok fs') : fs.GainsDirectories fs' := by
  rw [makeDirectory, attempt_bind_eq_ok_iff] at h
  obtain ⟨-, -, h⟩ := h
  cases hentry : fs.found? p.place with
  | some e => simp [hentry] at h
  | none =>
    obtain rfl : fs.set p.place .directory = fs' := by simpa [hentry] using h
    refine ⟨Grows.set hentry, fun q => ?_⟩
    rw [file?_set]
    split_ifs with hq
    · rw [hq, file?, hentry]
      rfl
    · rfl

theorem ensureDirectory_gains (fs : Files) (p : Path) :
    fs.GainsDirectories (fs.ensureDirectory p).1 := by
  unfold ensureDirectory
  split
  · rename_i fs' h
    exact makeDirectory_gains h
  · exact GainsDirectories.refl fs

theorem makeDirectories_gains (anchor : String) (names : List String) (fs : Files) :
    fs.GainsDirectories (makeDirectories anchor names fs).1 := by
  induction names generalizing fs with
  | nil => exact ensureDirectory_gains fs _
  | cons name outer ih =>
    rw [makeDirectories]
    split
    · have houter := ih fs
      split <;> rename_i hmade <;> rw [hmade] at houter
      · exact houter
      · exact houter.trans (ensureDirectory_gains _ _)
    · exact ensureDirectory_gains fs _

theorem openAppend_eq_ok (h : fs.openAppend p = .ok (fs', place)) :
    place = p.place ∧ fs.Grows fs' ∧
      ∀ q, fs'.file? q = if q = p.place then some ((fs.file? q).getD {}) else fs.file? q := by
  rw [openAppend, attempt_bind_eq_ok_iff] at h
  obtain ⟨-, -, h⟩ := h
  rcases hentry : fs.found? p.place with _ | _ | c <;>
    simp only [hentry, reduceCtorEq, Except.ok.injEq, Prod.mk.injEq] at h
  · obtain ⟨rfl, rfl⟩ := h
    refine ⟨rfl, Grows.set hentry, fun q => ?_⟩
    rw [file?_set]
    split_ifs with hq
    · rw [hq, file?, hentry]
      rfl
    · rfl
  · obtain ⟨rfl, rfl⟩ := h
    refine ⟨rfl, Grows.refl fs, fun q => ?_⟩
    split_ifs with hq
    · rw [hq, file?_eq_some_iff.mpr hentry]
      rfl
    · rfl

/-- **Opening a log** makes the file, if there is none, and directories. -/
theorem openLog_eq_ok (h : fs.openLog p = (fs', .ok place)) :
    place = p.place ∧ fs.Grows fs' ∧
      ∀ q, fs'.file? q = if q = p.place then some ((fs.file? q).getD {}) else fs.file? q := by
  have hmade := makeDirectories_gains p.anchor p.parent.names.reverse fs
  unfold openLog at h
  split at h <;> rename_i made hm <;> rw [hm] at hmade
  · cases h
  · split at h
    · rename_i hopen
      cases h
      obtain ⟨hplace, hgrows, hfile⟩ := openAppend_eq_ok hopen
      refine ⟨hplace, hmade.toGrows.trans hgrows, fun q => ?_⟩
      rw [hfile, hmade.file?_eq]
    · cases h

/-- The file at a place has further records in its middle. All else is the same. -/
structure Inserts (place : List String) (rs : Array Record) (fs fs' : Files) : Prop
    extends fs.SameTree fs' where
  file?_eq : ∀ q, fs'.file? q = fs.file? q ∨ q = place ∧ ∃ (c : Content) (behind : Array Record),
    fs.file? q = some (c.append behind) ∧ fs'.file? q = some ((c.append rs).append behind)

variable {rs : Array Record}

theorem Inserts.extend (h : Inserts place rs fs fs') (place' : List String) (rs' : Array Record) :
    Inserts place rs (fs.extend place' rs') (fs'.extend place' rs') where
  toSameTree := ((sameTree_extend fs place' rs').symm.trans h.toSameTree).trans
    (sameTree_extend fs' place' rs')
  file?_eq q := by
    rw [file?_extend, file?_extend]
    rcases h.file?_eq q with hq | ⟨hq, c, behind, hc, hc'⟩
    · rw [hq]
      exact .inl rfl
    · refine .inr ⟨hq, ?_⟩
      rw [hc, hc']
      split_ifs
      · exact ⟨c, behind ++ rs', by simp [Content.append_append]⟩
      · exact ⟨c, behind, rfl, rfl⟩

theorem Inserts.set (h : Inserts place rs fs fs') (place' : List String) (e : Entry) :
    Inserts place rs (fs.set place' e) (fs'.set place' e) where
  time_eq := by rw [time_set, time_set, h.time_eq]
  bare_eq q := by
    by_cases hq : q = place'
    · rw [hq, found?_set_self, found?_set_self]
    · rw [found?_set hq, found?_set hq, Option.map_or, Option.map_or, h.bare_eq]
  file?_eq q := by
    rw [file?_set, file?_set]
    split_ifs
    · exact .inl rfl
    · exact h.file?_eq q

end Files

end Micro8086
