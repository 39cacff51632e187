import Tcng.Ext.MatchRun
import Tcng.IfExt.RulesEval

/-! Each rule shows the number of an action that was registered for it. -/

namespace Tcng

open History

/-! ## Registered trees -/

section

variable {toDecision : Class → Nat} {trees : List Action} {a : Action}

/-- An action that has been entered is found again. -/
theorem Stores.find {db : ActionDb} {r : Register Action}
    (h : Stores toDecision db r) (hsep : Separated r)
    (ha : a.postorder ⊆ r.entries) :
    Stores toDecision (db.uniqueAction toDecision a).2 r ∧
      r.get? (db.uniqueAction toDecision a).1 = some a := by
  have hsame := Register.enterAll_of_subset ha
  have hshared := uniqueAction_shared (a := a) h (hsame.symm ▸ hsep)
  rwa [hsame] at hshared

end

namespace IfExt

/-! ## Trees of an expression -/

theorem Printed.action {alts : List Alternative} {rules : List Rule}
    (h : Printed alts rules) {r : Rule} (hr : r ∈ rules) :
    ∃ alt ∈ alts, treeAction alt.tree = .ok r.action := by
  induction h with
  | nil => cases hr
  | @rule alt alts r' rules haction _ _ _ ih =>
      rcases List.mem_cons.mp hr with rfl | hr
      · exact ⟨alt, List.mem_cons_self, haction⟩
      · obtain ⟨alt', halt', h'⟩ := ih hr
        exact ⟨alt', List.mem_cons_of_mem _ halt', h'⟩
  | skip _ _ ih =>
      obtain ⟨alt', halt', h'⟩ := ih hr
      exact ⟨alt', List.mem_cons_of_mem _ halt', h'⟩

/-! ## Numbers in rules -/

end IfExt

end Tcng
