import Mathlib.Data.List.Basic

/-! Rules in tables. The rules of a table are tried in their order; one that
holds decides or leads to another table, and where nothing decides, the next
rule is tried. -/

/-- What a rule is about, and what it says. -/
structure RuleReading (ρ τ δ : Type) where
  table : ρ → Option τ
  holds : ρ → Bool
  link : ρ → Option τ
  verdict : ρ → Option δ

namespace RuleReading

variable {ρ τ δ : Type} [DecidableEq τ] (r : RuleReading ρ τ δ)

def rulesOf (rules : List ρ) (t : τ) : List ρ :=
  rules.filter fun rule => r.table rule = some t

def answer (follow : τ → Option δ) (rule : ρ) : Option δ :=
  if r.holds rule then
    match r.link rule with
    | some t => follow t
    | none => r.verdict rule
  else none

/-- Not more than `depth` tables are entered. -/
def classify (rules : List ρ) : Nat → τ → Option δ
  | 0, _ => none
  | depth + 1, t =>
      (r.rulesOf rules t).findSome? (r.answer (classify rules depth))

/-- Rules for table `t`, with tables `own` for nobody else. Wherever nobody
else puts rules into these, the rules decide `v` after `depth` more tables. -/
structure Block (own : τ → Prop) (t : τ) (rules : List ρ) (depth : Nat)
    (v : Option δ) : Prop where
  foreign : ¬own t
  placed : ∀ rule ∈ rules, ∀ u, r.table rule = some u → u = t ∨ own u
  decides : ∀ all, (∀ u, own u → r.rulesOf all u = r.rulesOf rules u) →
    ∀ k, depth ≤ k →
      (r.rulesOf rules t).findSome? (r.answer (r.classify all k)) = v

section

variable {r} {own own' : τ → Prop} {t u : τ} {rules rules' : List ρ}
  {depth depth' : Nat} {v v' : Option δ}

theorem rulesOf_append (rules rules' : List ρ) (t : τ) :
    r.rulesOf (rules ++ rules') t = r.rulesOf rules t ++ r.rulesOf rules' t :=
  List.filter_append ..

theorem rulesOf_eq_nil (h : ∀ rule ∈ rules, r.table rule ≠ some t) :
    r.rulesOf rules t = [] := by
  apply List.filter_eq_nil_iff.mpr
  intro rule hrule
  rw [decide_eq_true_iff]
  exact h rule hrule

namespace Block

theorem nil (h : ¬own t) : r.Block own t [] 0 none where
  foreign := h
  placed := fun _ hrule => absurd hrule List.not_mem_nil
  decides := fun _ _ _ _ => rfl

/-- More tables may be entered, and more tables may be kept free. -/
theorem mono (h : r.Block own t rules depth v) (hdepth : depth ≤ depth')
    (hown : ∀ u, own u → own' u) (hforeign : ¬own' t) :
    r.Block own' t rules depth' v where
  foreign := hforeign
  placed := fun rule hrule u hu => (h.placed rule hrule u hu).imp id (hown u)
  decides := fun all hall k hk =>
    h.decides all (fun u hu => hall u (hown u hu)) k (Nat.le_trans hdepth hk)

/-- Rules that are in none of these tables do not count. -/
theorem rulesOf_own (h : r.Block own t rules depth v) (hne : u ≠ t)
    (hu : ¬own u) : r.rulesOf rules u = [] := by
  apply rulesOf_eq_nil
  intro rule hrule htable
  exact (h.placed rule hrule u htable).elim hne hu

/-- The first rules that decide are those that count. -/
theorem append (h : r.Block own t rules depth v)
    (h' : r.Block own' t rules' depth' v') (hdisjoint : ∀ u, own u → ¬own' u) :
    r.Block (fun u => own u ∨ own' u) t (rules ++ rules') (max depth depth')
      (v.or v') where
  foreign := fun ht => ht.elim h.foreign h'.foreign
  placed := by
    intro rule hrule u hu
    rcases List.mem_append.mp hrule with hrule | hrule
    · exact (h.placed rule hrule u hu).imp id .inl
    · exact (h'.placed rule hrule u hu).imp id .inr
  decides := by
    intro all hall k hk
    have hfirst (u : τ) (hu : own u) :
        r.rulesOf all u = r.rulesOf rules u := by
      have hne : u ≠ t := fun heq => h.foreign (heq ▸ hu)
      rw [hall u (.inl hu), rulesOf_append, h'.rulesOf_own hne (hdisjoint u hu),
        List.append_nil]
    have hsecond (u : τ) (hu : own' u) :
        r.rulesOf all u = r.rulesOf rules' u := by
      have hne : u ≠ t := fun heq => h'.foreign (heq ▸ hu)
      have hno : ¬own u := fun hown => hdisjoint u hown hu
      rw [hall u (.inr hu), rulesOf_append, h.rulesOf_own hne hno,
        List.nil_append]
    rw [rulesOf_append, List.findSome?_append,
      h.decides all hfirst k (Nat.le_trans (Nat.le_max_left ..) hk),
      h'.decides all hsecond k (Nat.le_trans (Nat.le_max_right ..) hk)]

/-- Lines that are no rules may stand in front. -/
theorem prepend {others : List ρ} (h : r.Block own t rules depth v)
    (hothers : ∀ rule ∈ others, r.table rule = none) :
    r.Block own t (others ++ rules) depth v := by
  have hnone (u : τ) : r.rulesOf (others ++ rules) u = r.rulesOf rules u := by
    have hempty : r.rulesOf others u = [] := by
      apply rulesOf_eq_nil
      intro rule hrule
      rw [hothers rule hrule]
      exact (Option.some_ne_none u).symm
    rw [rulesOf_append, hempty, List.nil_append]
  refine ⟨h.foreign, fun rule hrule u hu => ?_, fun all hall k hk => ?_⟩
  · rcases List.mem_append.mp hrule with hrule | hrule
    · rw [hothers rule hrule] at hu
      cases hu
    · exact h.placed rule hrule u hu
  · rw [hnone]
    exact h.decides all (fun u hu => (hall u hu).trans (hnone u)) k hk

theorem rule {rule : ρ} (hforeign : ¬own t) (htable : r.table rule = some t)
    (hlink : r.link rule = none) :
    r.Block own t [rule] 0 (if r.holds rule then r.verdict rule else none)
    where
  foreign := hforeign
  placed := by
    intro rule' hrule' u hu
    obtain rfl := List.mem_singleton.mp hrule'
    exact .inl (Option.some.inj (hu.symm.trans htable))
  decides := by
    intro all _ k _
    have hself : r.rulesOf [rule] t = [rule] :=
      List.filter_eq_self.mpr fun rule' hrule' => by
        rw [List.mem_singleton.mp hrule', htable, decide_eq_true_iff]
    rw [hself, List.findSome?_singleton, answer, hlink]

/-- A rule that leads to a table of its own. -/
theorem link {rule : ρ} (h : r.Block own u rules depth v)
    (htable : r.table rule = some t) (hlink : r.link rule = some u)
    (hforeign : ¬own t) (hne : u ≠ t) :
    r.Block (fun w => own w ∨ w = u) t (rule :: rules) (depth + 1)
      (if r.holds rule then v else none) where
  foreign := fun ht => ht.elim hforeign fun heq => hne heq.symm
  placed := by
    intro rule' hrule' w hw
    rcases List.mem_cons.mp hrule' with rfl | hrule'
    · exact .inl (Option.some.inj (hw.symm.trans htable))
    · exact .inr ((h.placed rule' hrule' w hw).symm)
  decides := by
    intro all hall k hk
    have hcons (w : τ) (hw : w ≠ t) :
        r.rulesOf (rule :: rules) w = r.rulesOf rules w := by
      refine List.filter_cons_of_neg ?_
      rw [htable, decide_eq_true_iff]
      exact fun heq => hw (Option.some.inj heq).symm
    have hself : r.rulesOf (rule :: rules) t = [rule] := by
      have hrest : r.rulesOf rules t = [] := h.rulesOf_own hne.symm hforeign
      refine (List.filter_cons_of_pos ?_).trans (congrArg _ hrest)
      rw [htable, decide_eq_true_iff]
    obtain ⟨k, rfl⟩ : ∃ k', k = k' + 1 := ⟨k - 1, by omega⟩
    have hbelow : r.classify all (k + 1) u = v := by
      rw [classify, hall u (.inr rfl), hcons u hne]
      refine h.decides all (fun w hw => ?_) k (by omega)
      rw [hall w (.inl hw)]
      exact hcons w fun heq => hforeign (heq ▸ hw)
    rw [hself, List.findSome?_singleton, answer, hlink]
    exact if_congr Iff.rfl hbelow rfl

/-- Alone, the rules decide what they are meant to. -/
theorem classify_eq (h : r.Block own t rules depth v) {k : Nat}
    (hk : depth < k) : r.classify rules k t = v := by
  obtain ⟨k, rfl⟩ : ∃ k', k = k' + 1 := ⟨k - 1, by omega⟩
  exact h.decides rules (fun _ _ => rfl) k (by omega)

end Block

end

end RuleReading
