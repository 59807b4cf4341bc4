import Teal.Listing
/-!
# Where control comes to

Control at a line skips to the next line that executes. What it comes to depends on the rest of the
listing only, so lines are compared here by what lies ahead of them: `ahead` is the rest of a
listing from the next executable line on.
-/

namespace Teal

/-- The lines from the first one on that executes. -/
def ahead (ops : List (Op LabelId)) : List (Op LabelId) :=
  ops.dropWhile (!·.isExecutable)

theorem ahead_cons_of_executable {op : Op LabelId} (h : op.isExecutable = true)
    (rest : List (Op LabelId)) : ahead (op :: rest) = op :: rest := by
  simp [ahead, h]

theorem ahead_cons_of_skipped {op : Op LabelId} (h : op.isExecutable = false)
    (rest : List (Op LabelId)) : ahead (op :: rest) = ahead rest := by
  simp [ahead, h]

/-- What lies ahead starts with an instruction. -/
theorem executable_of_ahead {ops rest : List (Op LabelId)} {op : Op LabelId}
    (h : ahead ops = op :: rest) : op.isExecutable = true := by
  induction ops with
  | nil => cases h
  | cons o os ih =>
    cases ho : o.isExecutable with
    | true =>
      rw [ahead_cons_of_executable ho] at h
      cases h
      exact ho
    | false => exact ih (ahead_cons_of_skipped ho os ▸ h)

namespace Op

variable {ι : Type}

theorem executable_of_declared {op : Op ι} {id : ι} (h : op.declared? = some id) :
    op.isExecutable = false := by
  cases op <;> simp_all [declared?, isExecutable]

theorem declared?_of_executable {op : Op ι} (h : op.isExecutable = true) : op.declared? = none := by
  cases op <;> simp_all [declared?, isExecutable]

theorem isNop_of_executable {op : Op ι} (h : op.isExecutable = true) : op.isNop = false := by
  cases op <;> simp_all [isNop, isExecutable]

theorem isNop_of_declared {op : Op ι} {id : ι} (h : op.declared? = some id) : op.isNop = false := by
  cases op <;> simp_all [isNop, declared?]

theorem endsFlow_of_skipped {op : Op ι} (h : op.isExecutable = false) : op.endsFlow = false := by
  cases op <;> simp_all [endsFlow, isTerminator, isUnconditionalBranch, isExecutable]

theorem skipped_of_isNop {op : Op ι} (h : op.isNop = true) : op.isExecutable = false := by
  cases op <;> simp_all [isNop, isExecutable]

end Op

namespace Listing

theorem findIdx?_cases {α : Type} (p : α → Bool) (xs : List α) :
    (xs.findIdx? p = none ∧ xs.dropWhile (!p ·) = []) ∨
      ∃ n x rest, xs.findIdx? p = some n ∧ xs.dropWhile (!p ·) = x :: rest ∧
        xs.drop n = x :: rest := by
  induction xs with
  | nil => exact .inl ⟨rfl, rfl⟩
  | cons x xs ih =>
    cases h : p x with
    | true => exact .inr ⟨0, x, xs, by simp [List.findIdx?_cons, h], by simp [h], rfl⟩
    | false =>
      rcases ih with ⟨hn, hd⟩ | ⟨n, y, rest, hn, hd, hdrop⟩
      · exact .inl ⟨by simp [List.findIdx?_cons, h, hn], by simp [h, hd]⟩
      · exact .inr ⟨n + 1, y, rest, by simp [List.findIdx?_cons, h, hn], by simp [h, hd], hdrop⟩

/-- What control at a line comes to: nothing if nothing lies ahead, else the first instruction
ahead. -/
theorem fetch?_cases (l : Listing) (i : Nat) :
    (ahead (l.ops.drop i) = [] ∧ l.fetch? i = none) ∨
      ∃ pc op, ahead (l.ops.drop i) = op :: l.ops.drop (pc + 1) ∧ l.fetch? i = some (pc, op) ∧
        i ≤ pc ∧ l.ops.drop pc = op :: l.ops.drop (pc + 1) := by
  rcases findIdx?_cases Op.isExecutable (l.ops.drop i) with ⟨hn, hd⟩ | ⟨n, op, rest, hn, hd, hdrop⟩
  · exact .inl ⟨hd, by simp [fetch?, nextExecutable, nextWhere, hn]⟩
  · rw [List.drop_drop] at hdrop
    have hrest : l.ops.drop (i + n + 1) = rest := by
      rw [← List.drop_drop, hdrop]
      rfl
    have hget : l.ops[i + n]? = some op := by
      rw [← List.head?_drop, hdrop]
      rfl
    refine .inr ⟨i + n, op, ?_, ?_, Nat.le_add_right i n, ?_⟩
    · rw [hrest]
      exact hd
    · simp [fetch?, nextExecutable, nextWhere, hn, hget]
    · rw [hdrop, hrest]

/-- What a skipped line hands on to the next line reaches the line that control comes to. -/
theorem fetch?_induction {l : Listing} {P : Nat → Prop} {i pc : Nat} {op : Op LabelId}
    (h : l.fetch? i = some (pc, op)) (hi : P i)
    (hskip : ∀ j o, P j → l.ops[j]? = some o → o.isExecutable = false → P (j + 1)) :
    l.ops[pc]? = some op ∧ P pc := by
  simp only [fetch?, nextExecutable, nextWhere, Option.bind_eq_bind, Option.bind_eq_some_iff,
    Option.map_eq_some_iff, Option.some.injEq, Prod.mk.injEq] at h
  obtain ⟨pc', ⟨n, hn, rfl⟩, op', hop, rfl, rfl⟩ := h
  obtain ⟨hlt, -, hbefore⟩ := List.findIdx?_eq_some_iff_getElem.1 hn
  refine ⟨hop, ?_⟩
  -- Every line before the one found is skipped.
  have hall : ∀ k, k ≤ n → P (i + k) := by
    intro k hk
    induction k with
    | zero => exact hi
    | succ k ih =>
      have hk' : k < (l.ops.drop i).length := by omega
      refine hskip (i + k) (l.ops.drop i)[k] (ih (by omega)) ?_ ?_
      · rw [← List.getElem?_drop, List.getElem?_eq_getElem hk']
      · simpa using hbefore k (by omega)
  exact hall n (Nat.le_refl n)

theorem getElem?_of_fetch? {l : Listing} {i pc : Nat} {op : Op LabelId}
    (h : l.fetch? i = some (pc, op)) : l.ops[pc]? = some op :=
  (fetch?_induction (P := fun _ => True) h trivial fun _ _ _ _ _ => trivial).1

theorem nextExecutable_of_fetch? {l : Listing} {i pc : Nat} {op : Op LabelId}
    (h : l.fetch? i = some (pc, op)) : l.nextExecutable i = some pc := by
  obtain ⟨pc', hnext, hop⟩ := Option.bind_eq_some_iff.1 h
  obtain ⟨op', -, hpair⟩ := Option.bind_eq_some_iff.1 hop
  cases hpair
  exact hnext

theorem fetch?_of_nextExecutable {l : Listing} {i line : Nat} (h : l.nextExecutable i = some line) :
    ∃ op, l.fetch? i = some (line, op) := by
  have hlt : line < l.ops.length := by
    simp only [nextExecutable, nextWhere, Option.map_eq_some_iff] at h
    obtain ⟨n, hn, rfl⟩ := h
    have hn := (List.findIdx?_eq_some_iff_getElem.1 hn).1
    rw [List.length_drop] at hn
    omega
  exact ⟨l.ops[line], by simp [fetch?, h, List.getElem?_eq_getElem hlt]⟩

end Listing

/-! ## Declarations -/

/-- The first line that declares a label. -/
def place? (id : LabelId) (ops : List (Op LabelId)) : Option Nat :=
  ops.findIdx? (·.declared? = some id)

theorem place?_cons_self {id : LabelId} {op : Op LabelId} (h : op.declared? = some id)
    (rest : List (Op LabelId)) : place? id (op :: rest) = some 0 := by
  simp [place?, List.findIdx?_cons, h]

theorem place?_cons_ne {id : LabelId} {op : Op LabelId} (h : op.declared? ≠ some id)
    (rest : List (Op LabelId)) : place? id (op :: rest) = (place? id rest).map (· + 1) := by
  simp [place?, List.findIdx?_cons, h]

/-- The labels that lines declare, in order. -/
def declaredLabels (ops : List (Op LabelId)) : List LabelId :=
  ops.filterMap Op.declared?

theorem place?_eq_none {id : LabelId} {ops : List (Op LabelId)} :
    place? id ops = none ↔ id ∉ declaredLabels ops := by
  simp [place?, declaredLabels, List.findIdx?_eq_none_iff]

theorem declaredLabels_sublist {ops ops' : List (Op LabelId)} (h : ops.Sublist ops') :
    (declaredLabels ops).Sublist (declaredLabels ops') :=
  h.filterMap _

theorem place?_le {id : LabelId} {ops : List (Op LabelId)} {n : Nat} (h : place? id ops = some n) :
    n ≤ ops.length := by
  rw [place?, List.findIdx?_eq_some_iff_getElem] at h
  exact Nat.le_of_lt h.1

theorem mem_declaredLabels_of_place? {id : LabelId} {ops : List (Op LabelId)} {n : Nat}
    (h : place? id ops = some n) : id ∈ declaredLabels ops :=
  Decidable.byContradiction fun hmem => by cases (place?_eq_none.2 hmem).symm.trans h

/-- Where a label is declared once, a later declaration is the first one. -/
theorem place?_of_drop {id : LabelId} {ops : List (Op LabelId)} {n k : Nat}
    (hnodup : (declaredLabels ops).Nodup) (h : place? id (ops.drop n) = some k) :
    place? id ops = some (n + k) := by
  induction ops generalizing n with
  | nil => simp [place?] at h
  | cons op rest ih =>
    cases n with
    | zero => simpa using h
    | succ n =>
      have hmem : id ∈ declaredLabels rest :=
        (declaredLabels_sublist (List.drop_sublist n rest)).subset (mem_declaredLabels_of_place? h)
      have hne : op.declared? ≠ some id := by
        intro hop
        rw [declaredLabels, List.filterMap_cons_some hop, List.nodup_cons] at hnodup
        exact hnodup.1 hmem
      have hrest : (declaredLabels rest).Nodup :=
        hnodup.sublist (declaredLabels_sublist (List.sublist_cons_self op rest))
      rw [place?_cons_ne hne, ih hrest h]
      exact congrArg some (Nat.add_right_comm n k 1)

/-- The first declaration is the first one among the lines from an earlier one on. -/
theorem place?_drop {id : LabelId} {ops : List (Op LabelId)} {n t : Nat}
    (h : place? id ops = some t) (hle : n ≤ t) : place? id (ops.drop n) = some (t - n) := by
  rw [place?, List.findIdx?_eq_some_iff_getElem] at h ⊢
  obtain ⟨hlt, hdecl, hbefore⟩ := h
  refine ⟨by rw [List.length_drop]; omega, ?_, ?_⟩
  · simpa only [List.getElem_drop, Nat.add_sub_cancel' hle] using hdecl
  · intro j hj
    simpa only [List.getElem_drop] using hbefore (n + j) (by omega)

/-- A label that a line refers to has references. -/
theorem references_ne_zero {l : Listing} {op : Op LabelId} {id : LabelId} (hop : op ∈ l.ops)
    (hid : id ∈ op.targets) : (l.references id != 0) = true := by
  have hmem : id ∈ l.ops.flatMap Op.targets := List.mem_flatMap.2 ⟨op, hop, hid⟩
  rw [bne_iff_ne]
  exact Nat.ne_of_gt (List.count_pos_iff.2 hmem)

theorem Listing.mem_declarations_iff {l : Listing} {id : LabelId} {line : Nat} :
    line ∈ l.declarations id ↔ ∃ op, l.ops[line]? = some op ∧ op.declared? = some id := by
  simp only [declarations, List.mem_filterMap, Option.ite_none_right_eq_some, Option.some.injEq,
    Prod.exists]
  constructor
  · rintro ⟨op, i, hop, hdeclared, rfl⟩
    exact ⟨op, List.mem_zipIdx_iff_getElem?.1 hop, hdeclared⟩
  · rintro ⟨op, hop, hdeclared⟩
    exact ⟨op, line, List.mem_zipIdx_iff_getElem?.2 hop, hdeclared, rfl⟩

/-- A jump goes to the first of the lines that declare its label. -/
theorem Listing.target?_eq_head? (l : Listing) (id : LabelId) :
    l.target? id = (l.declarations id).head? := by
  have hfirst (ops : List (Op LabelId)) (k : Nat) :
      ((ops.zipIdx k).filterMap fun numbered =>
          if numbered.1.declared? = some id then some numbered.2 else none).head? =
        (ops.findIdx? (·.declared? = some id)).map (· + k) := by
    induction ops generalizing k with
    | nil => rfl
    | cons op ops ih =>
      rw [List.zipIdx_cons, List.findIdx?_cons, List.filterMap_cons]
      by_cases hop : op.declared? = some id
      · simp [hop]
      · simp [hop, ih, Function.comp_def, Nat.add_assoc, Nat.add_comm 1]
  calc l.target? id
      = (l.ops.findIdx? (·.declared? = some id)).map (· + 0) := by simp [target?]
    _ = (l.declarations id).head? := (hfirst l.ops 0).symm

/-- Every label is declared at most once. -/
def Listing.Unambiguous (l : Listing) : Prop :=
  (declaredLabels l.ops).Nodup

instance (l : Listing) : Decidable l.Unambiguous :=
  inferInstanceAs (Decidable (declaredLabels l.ops).Nodup)

end Teal
