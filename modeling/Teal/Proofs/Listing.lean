import Teal.Expr
/-!
# Labels by name and by number

The lines of a listing name their labels by number. `Listing.source` names them by text again, and
gives back the lines that a listing was made of.
-/

namespace Teal

/-! ## Label tables -/

namespace LabelTable

theorem mem_insert {t : LabelTable} {name x : String} :
    x ∈ (t.insert name).names ↔ x ∈ t.names ∨ x = name := by
  unfold insert
  split
  · rename_i hmem
    exact ⟨.inl, fun h => h.elim id fun heq => heq ▸ hmem⟩
  · simp only [List.mem_append, List.mem_singleton]

theorem mem_foldl_insert {names : List String} {t : LabelTable} {x : String} :
    x ∈ (names.foldl insert t).names ↔ x ∈ t.names ∨ x ∈ names := by
  induction names generalizing t with
  | nil => simp
  | cons name names ih => rw [List.foldl_cons, ih, mem_insert, List.mem_cons, or_assoc]

theorem mem_ofList {names : List String} {x : String} : x ∈ (ofList names).names ↔ x ∈ names := by
  simp [ofList, mem_foldl_insert, empty]

theorem name_idOf {t : LabelTable} {x : String} (h : x ∈ t.names) : t.name (t.idOf x) = x := by
  rw [name, idOf, List.getElem?_eq_getElem (List.idxOf_lt_length_of_mem h), Option.getD_some,
    List.getElem_idxOf]

end LabelTable

/-! ## Renaming labels -/

namespace Op

variable {ι κ μ : Type}

theorem map_map (f : ι → κ) (g : κ → μ) (op : Op ι) : (op.map f).map g = op.map (g ∘ f) := by
  cases op <;> simp [map]

theorem map_eq_self {f : ι → ι} {op : Op ι} (h : ∀ x ∈ op.mentions, f x = x) : op.map f = op := by
  have hall {xs : List ι} (h : ∀ x ∈ xs, f x = x) : xs.map f = xs :=
    (List.map_congr_left h).trans (List.map_id' xs)
  cases op with
  | label id => exact congrArg label (h id List.mem_cons_self)
  | branch kind target => exact congrArg (branch kind) (h target List.mem_cons_self)
  | callsub target => exact congrArg callsub (h target List.mem_cons_self)
  | switch targets => exact congrArg switch (hall h)
  | matchCases targets => exact congrArg matchCases (hall h)
  | _ => rfl

theorem targets_map (f : ι → κ) (op : Op ι) : (op.map f).targets = op.targets.map f := by
  cases op <;> rfl

theorem declared?_map (f : ι → κ) (op : Op ι) : (op.map f).declared? = op.declared?.map f := by
  cases op <;> rfl

end Op

namespace Listing

/-- The lines of a listing, with labels named by text. -/
def source (l : Listing) : List (Op String) :=
  l.ops.map (·.map l.labels.name)

theorem source_ofLines (ops : List (Op String)) : (ofLines ops).source = ops := by
  have hop : ∀ op ∈ ops,
      (op.map (ofLines ops).labels.idOf).map (ofLines ops).labels.name = op := by
    intro op hop
    rw [Op.map_map]
    refine Op.map_eq_self fun x hx => LabelTable.name_idOf ?_
    exact LabelTable.mem_ofList.2 (List.mem_flatMap.2 ⟨op, hop, hx⟩)
  calc (ofLines ops).source
      = ops.map fun op => (op.map (ofLines ops).labels.idOf).map (ofLines ops).labels.name :=
        List.map_map
    _ = ops.map fun op => op := List.map_congr_left hop
    _ = ops := List.map_id' ops

theorem render_eq_source (l : Listing) :
    l.render = String.join (l.source.map fun op => op.render ++ "\n") := by
  simp [render, renderLines, source, List.map_map, Function.comp_def]

end Listing

/-! ## Programs of plain lines -/

theorem Expr.flattenAll_lines {ops : List (Op String)}
    (h : ∀ op ∈ ops, ∀ name ∈ op.mentions, name ≠ "") :
    flattenAll (ops.map .line) = .ok ops := by
  induction ops with
  | nil => rfl
  | cons op ops ih =>
    have hop : op.named = .ok [op] := by
      refine if_neg fun hany => ?_
      obtain ⟨name, hname, hempty⟩ := List.any_eq_true.1 hany
      exact h op List.mem_cons_self name hname (String.isEmpty_iff.1 hempty)
    rw [List.map_cons, flattenAll, flatten, hop, ih fun o ho => h o (List.mem_cons_of_mem op ho)]
    rfl

theorem Listing.ofExprs_lines {ops : List (Op String)}
    (h : ∀ op ∈ ops, ∀ name ∈ op.mentions, name ≠ "") :
    Listing.ofExprs (ops.map .line) = .ok (Listing.ofLines ops) := by
  rw [Listing.ofExprs, Expr.flattenAll_lines h]
  rfl

end Teal
