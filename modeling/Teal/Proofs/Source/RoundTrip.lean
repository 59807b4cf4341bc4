import Teal.Source.Program
import Teal.Proofs.Listing
import Teal.Proofs.Optimizer
import Teal.Proofs.Source.Line
/-!
# Rendered listings read back

A listing whose lines are all writable is read back from its text, line for line. The listing of a
source text is one, and every pass of the optimizer keeps it one: lines only go, and the labels
that references are changed to are declared.
-/

namespace Teal

open Source
open Text (isBlank isSpace Trimmed)

/-! ## Writable lines -/

theorem Source.IsReference.ne_empty {name : String} (h : IsReference name) : name ≠ "" := by
  rintro rfl
  obtain ⟨c, cs, hcons, -⟩ := h.cases
  cases hcons

namespace Op

theorem Writable.of_declared {op : Op String} (h : op.Writable) {name : String}
    (hname : op.declared? = some name) : IsReference name := by
  cases op with
  | label => exact Option.some.inj hname ▸ h.1
  | _ => cases hname

theorem Writable.of_targets {op : Op String} (h : op.Writable) {name : String}
    (hname : name ∈ op.targets) : IsReference name := by
  cases op with
  | comment | label | instr => cases hname
  | _ => exact h name hname

theorem Writable.of_mentions {op : Op String} (h : op.Writable) {name : String}
    (hname : name ∈ op.mentions) : IsReference name := by
  rcases List.mem_append.1 hname with hdecl | htarget
  · exact h.of_declared (Option.mem_toList.1 hdecl)
  · exact h.of_targets htarget

/-- A line stays writable when its references become other names that can be referred to. -/
theorem Writable.retarget {names : LabelId → String} {op : Op LabelId}
    (h : (op.map names).Writable) {f : LabelId → LabelId}
    (hf : ∀ id ∈ op.targets, IsReference (names id) → IsReference (names (f id))) :
    ((op.retarget f).map names).Writable := by
  have hall : ∀ name ∈ (op.targets.map f).map names, IsReference name := by
    intro name hname
    rw [List.map_map] at hname
    obtain ⟨id, hid, rfl⟩ := List.mem_map.1 hname
    have htarget : names id ∈ (op.map names).targets := by
      rw [targets_map]
      exact List.mem_map_of_mem hid
    exact hf id hid (h.of_targets htarget)
  cases op with
  | branch | callsub | switch | matchCases => exact hall
  | _ => exact h

end Op

namespace Source

/-! ## Reading rendered lines -/

theorem parseFrom_render {ops : List (Op String)} (h : ∀ op ∈ ops, op.Writable) (number : Nat) :
    parseFrom number (ops.map (·.render.toList)) = { ops } := by
  induction ops generalizing number with
  | nil => rfl
  | cons op ops ih =>
    have hline := (readsAs_render (h op List.mem_cons_self)).line
    have hrest := ih (fun o ho => h o (List.mem_cons_of_mem op ho)) (number + 1)
    simp only [List.map_cons, parseFrom, hline, hrest]

theorem parse_render {ops : List (Op String)} (h : ∀ op ∈ ops, op.Writable) :
    parse (String.join (ops.map fun op => op.render ++ "\n")) = { ops } := by
  have htext : (String.join (ops.map fun op => op.render ++ "\n")).toList =
      (ops.map (·.render.toList)).flatMap (· ++ ['\n']) := by
    simp [String.toList_join, List.flatMap_map]
  have hlines : Text.lines ((ops.map (·.render.toList)).flatMap (· ++ ['\n'])) =
      ops.map (·.render.toList) := by
    refine Text.lines_flatMap fun l hl => ?_
    obtain ⟨op, hop, rfl⟩ := List.mem_map.1 hl
    have hreads := readsAs_render (h op hop)
    -- A rendered line ends in no white space, so its newline is not taken with a return before it.
    exact ⟨hreads.newline, fun hlast => by cases hreads.trimmed.last '\r' hlast⟩
  rw [parse, htext, hlines, parseFrom_render h]

theorem writable_of_mem_parseFrom {ls : List (List Char)} {number : Nat} {op : Op String}
    (h : ∀ l ∈ ls, '\n' ∉ l ∧ ∀ c ∈ l, isSpace c = true → isBlank c = true)
    (hop : op ∈ (parseFrom number ls).ops) : op.Writable := by
  induction ls generalizing number with
  | nil => cases hop
  | cons l ls ih =>
    have hrest : op ∈ (parseFrom (number + 1) ls).ops → op.Writable :=
      ih fun l' hl' => h l' (List.mem_cons_of_mem l hl')
    obtain ⟨hnl, hspace⟩ := h l List.mem_cons_self
    unfold parseFrom at hop
    dsimp only at hop
    split at hop
    · rename_i op' hline
      rcases List.mem_cons.1 hop with rfl | hop
      · exact writable_of_line hspace hnl hline
      · exact hrest hop
    · -- A line that is refused counts as blank.
      rcases List.mem_cons.1 hop with rfl | hop
      · exact nofun
      · exact hrest hop

theorem writable_of_mem_parse {text : String}
    (h : ∀ c ∈ text.toList, isSpace c = true → isBlank c = true) {op : Op String}
    (hop : op ∈ (parse text).ops) : op.Writable := by
  refine writable_of_mem_parseFrom (fun l hl => ⟨fun hnl => ?_, fun c hc => ?_⟩) hop
  · exact (Text.mem_of_mem_lines hl '\n' hnl).2 rfl
  · exact h c (Text.mem_of_mem_lines hl c hc).1

/-- Lines that are all writable have a listing. -/
theorem ofExprs_of_writable {ops : List (Op String)} (h : ∀ op ∈ ops, op.Writable) :
    Listing.ofExprs (ops.map .line) = .ok (.ofLines ops) :=
  Listing.ofExprs_lines fun op hop _ hname => ((h op hop).of_mentions hname).ne_empty

end Source

/-! ## Optimized listings -/

/-- All lines of a listing are lines that source text can hold. -/
def Listing.Writable (l : Listing) : Prop := ∀ op ∈ l.source, op.Writable

namespace Optimizer

theorem writable_of_sublist {l l' : Listing} (hl : l.Writable) (hops : l'.ops.Sublist l.ops)
    (hlabels : l'.labels = l.labels) : l'.Writable := by
  intro op hop
  rw [Listing.source, hlabels] at hop
  exact hl op ((hops.map _).subset hop)

theorem writable_mergeLabels {l : Listing} (hl : l.Writable) : (mergeLabels l).Writable := by
  have hmem {op : Op LabelId} (hop : op ∈ l.ops) : (op.map l.labels.name).Writable :=
    hl _ (List.mem_map_of_mem hop)
  have hdeclared {id : LabelId} (hid : id ∈ declaredLabels l.ops) :
      IsReference (l.labels.name id) := by
    obtain ⟨op, hop, hdecl⟩ := List.mem_filterMap.1 hid
    refine (hmem hop).of_declared ?_
    rw [Op.declared?_map, hdecl]
    rfl
  intro named hnamed
  obtain ⟨op', hop', rfl⟩ := List.mem_map.1 hnamed
  obtain ⟨op, hop, rfl⟩ := List.mem_map.1 hop'
  refine (hmem ((collapse_sublist none l.ops).subset hop)).retarget fun id _ hid => ?_
  rcases replacement_cases (collapse none l.ops).2 id with heq | hrename
  · rwa [heq]
  · rcases renames_declared hrename with hnone | hid
    · cases hnone
    · exact hdeclared hid

theorem Pass.writable {l : Listing} (hl : l.Writable) (pass : Pass) : (pass.apply l).Writable := by
  cases pass with
  | unusedLabels => exact writable_of_sublist hl (dropLabels_sublist _ l.ops) rfl
  | deadCode => exact writable_of_sublist hl (dropDead_sublist false l.ops) rfl
  | redundantBranches => exact writable_of_sublist hl (dropBranches_sublist l.ops) rfl
  | mergeLabels => exact writable_mergeLabels hl

end Optimizer

namespace Source

/-- A source text, read and written, reads as the same lines and has the same listing; optimized
and written, it reads without complaint and is written the same again. The white space of the text
must be all blanks: a line is trimmed of any white space, but its tokens end at blanks only. -/
theorem parse_render_parse (text : String)
    (hspace : ∀ c ∈ text.toList, isSpace c = true → isBlank c = true) :
    ∃ l, Listing.ofExprs ((parse text).ops.map .line) = .ok l ∧
      (parse l.render).diagnostics = [] ∧ (parse l.render).ops = (parse text).ops ∧
      Listing.ofExprs ((parse l.render).ops.map .line) = .ok l ∧
      (parse l.optimize.render).diagnostics = [] ∧
      ∃ l', Listing.ofExprs ((parse l.optimize.render).ops.map .line) = .ok l' ∧
        l'.render = l.optimize.render := by
  have hops : ∀ op ∈ (parse text).ops, op.Writable := fun op => writable_of_mem_parse hspace
  have hlisting := ofExprs_of_writable hops
  generalize (parse text).ops = ops at hops hlisting ⊢
  have hsource := Listing.source_ofLines ops
  have hread : parse (Listing.ofLines ops).render = { ops } := by
    rw [Listing.render_eq_source, hsource, parse_render hops]
  have hopt : (Listing.ofLines ops).optimize.Writable :=
    Optimizer.optimize_induction Optimizer.Pass.writable (by rwa [Listing.Writable, hsource])
  generalize hl' : (Listing.ofLines ops).optimize = l' at hopt ⊢
  have hread' : parse l'.render = { ops := l'.source } := by
    rw [Listing.render_eq_source, parse_render hopt]
  refine ⟨.ofLines ops, hlisting, ?_⟩
  rw [hread, hl', hread']
  refine ⟨rfl, rfl, hlisting, rfl, .ofLines l'.source, ofExprs_of_writable hopt, ?_⟩
  rw [Listing.render_eq_source, Listing.source_ofLines, Listing.render_eq_source]

theorem parse_render_parse_loop :
    let text := "start:\nagain:\n\tint 0x10 // sixteen\n\tb again\nlog \"a b\"\r\n bnz\n"
    (∀ c ∈ text.toList, isSpace c = true → isBlank c = true) ∧
      (parse text).ops = [.label "start", .label "again", .int .pseudo 16, .branch .always "again",
        .instr "log" ["\"a b\""], .empty] ∧
      ∃ l, Listing.ofExprs ((parse text).ops.map .line) = .ok l ∧
        (parse l.render).diagnostics = [] ∧ (parse l.render).ops = (parse text).ops ∧
        Listing.ofExprs ((parse l.render).ops.map .line) = .ok l ∧
        (parse l.optimize.render).diagnostics = [] ∧
        ∃ l', Listing.ofExprs ((parse l.optimize.render).ops.map .line) = .ok l' ∧
          l'.render = l.optimize.render := by
  intro text
  have hall : text.toList.all (fun c => !isSpace c || isBlank c) = true := by decide
  have hspace : ∀ c ∈ text.toList, isSpace c = true → isBlank c = true := by
    intro c hc hspace
    simpa [hspace] using List.all_eq_true.1 hall c hc
  exact ⟨hspace, by decide +kernel, parse_render_parse text hspace⟩

end Source

end Teal
