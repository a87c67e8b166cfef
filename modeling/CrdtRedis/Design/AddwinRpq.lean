import CrdtRedis.Broadcast.Algorithm
import CrdtRedis.Design.RwfRpq

/-!
# The design of the Add-Win priority queue (`addwin_rpq.tla`)

The design has a set of records `a_set`, one for each tag that an add or an increment named, and a
set of removed tags `r_set`. A remove adds to `r_set` only, so `a_set` keeps the records of removed
tags, and later increments still change them.

* `addwin_sec`: the invariant `SEC`, for every number of processes, bound and constants: processes
  that have the same operations to apply have the same sets.

The constants `Elmts`, `Values` and `Increments` only limit the requests; here there is no limit.
The values of the queue are exact numbers, as in the model of the code. The processes are `1..N`,
`r : Fin n` is process `r + 1`.
-/

namespace CrdtRedis

open Broadcast

namespace AddwinRpq

open RwfRpq (proc setUpdate)

variable {n : ℕ}

/-! ## The design -/

/-- A tag `<<self, num>>`. -/
abbrev Tag := ℤ × ℤ

/-- A record of `a_set`. -/
structure Rcd where
  key : Sds
  t : Tag
  v_inn : ℚ
  v_acq : ℚ
  change : ℚ

/-- A record of `r_set`. -/
structure Rmv where
  key : Sds
  t : Tag

/-- The variables of a process. -/
structure Loc where
  a_set : Set Rcd
  r_set : Set Rmv
  num : ℤ

/-- `_T_Set`; `key` and `t` are the fields of a record. -/
def tSet {X : Type} (key : X → Sds) (t : X → Tag) (set : Set X) (e : Sds) : Set Tag :=
  t '' {s ∈ set | key s = e}

/-- `_Observe_T`. -/
def observeT (a_set : Set Rcd) (r_set : Set Rmv) (e : Sds) : Set Tag :=
  tSet Rcd.key Rcd.t a_set e \ tSet Rmv.key Rmv.t r_set e

/-- `_Lookup`. -/
def lookup (a_set : Set Rcd) (r_set : Set Rmv) (e : Sds) : Prop := observeT a_set r_set e ≠ ∅

open Classical in
/-- `_Element`. -/
noncomputable def element (a_set : Set Rcd) (e : Sds) (t : Tag) : Rcd :=
  if h : ∃ s ∈ a_set, s.key = e ∧ s.t = t then h.choose else ⟨e, t, 0, 0, 0⟩

/-- The record `p` of an operation: what `_Add`, `_Remove` and `_Increase` make. -/
inductive Op where
  | add (key : Sds) (val : ℚ) (t : Tag)
  | remove (key : Sds) (O : Set Tag)
  | increase (key : Sds) (val : ℚ) (O : Set Tag)

/-- What a process asks for. -/
inductive Req where
  | add (e : Sds) (x : ℚ)
  | remove (e : Sds)
  | increase (e : Sds) (i : ℚ)

open Classical in
/-- `_Add`, `_Remove` and `_Increase`, and `num` after them; `none` is the record with key
`null`. -/
noncomputable def prepare (self : Fin n) (s : Loc) : Req → Option (Loc × Op)
  | .add e x =>
    if ¬ lookup s.a_set s.r_set e then
      some ({ s with num := s.num + 1 }, .add e x (proc self, s.num))
    else none
  | .remove e =>
    if lookup s.a_set s.r_set e then some (s, .remove e (observeT s.a_set s.r_set e)) else none
  | .increase e i =>
    if lookup s.a_set s.r_set e then some (s, .increase e i (observeT s.a_set s.r_set e)) else none

/-- The macro `Add`. -/
noncomputable def add (e : Sds) (x : ℚ) (t : Tag) (s : Loc) : Loc :=
  let e_record := element s.a_set e t
  { s with
    a_set := setUpdate s.a_set e_record ⟨e, t, x, e_record.v_acq, e_record.change⟩ }

/-- The macro `Remove`. -/
def remove (e : Sds) (O : Set Tag) (s : Loc) : Loc :=
  { s with r_set := s.r_set ∪ Rmv.mk e '' O }

/-- The macro `Increase`. -/
noncomputable def increase (e : Sds) (i : ℚ) (O : Set Tag) (s : Loc) : Loc :=
  let inc_set_old := element s.a_set e '' O
  let inc_set_new := (fun rcd : Rcd =>
    ⟨rcd.key, rcd.t, rcd.v_inn, rcd.v_acq + i, rcd.change + |i|⟩) '' inc_set_old
  { s with a_set := s.a_set \ inc_set_old ∪ inc_set_new }

/-- What a process does with an operation, its own or one of `ops`. -/
noncomputable def effect : Op → Loc → Loc
  | .add key val t => add key val t
  | .remove key O => remove key O
  | .increase key val O => increase key val O

/-- The algorithm. -/
noncomputable def algorithm (n : ℕ) : Algorithm (Fin n) Loc Req Op where
  init _ := ⟨∅, ∅, 0⟩
  prepare := prepare
  ready _ _ := True
  effect := effect

/-- `SEC`. -/
def SEC (d : Design.St (Fin n) Loc Op) : Prop :=
  ∀ p₁ p₂, p₁ ≠ p₂ ∧ d.ops p₁ = d.ops p₂ →
    (d.loc p₁).a_set = (d.loc p₂).a_set ∧ (d.loc p₁).r_set = (d.loc p₂).r_set

/-! ## The records as a table -/

/-- The three values of a record. -/
abbrev Vals := ℚ × ℚ × ℚ

/-- The values for each element and tag. -/
abbrev Tab := Sds → Tag → Option Vals

/-- The records of a table. -/
def recs (ρ : Tab) : Set Rcd := {r | ρ r.key r.t = some (r.v_inn, r.v_acq, r.change)}

/-- The record of an element and a tag. -/
def rcd (e : Sds) (t : Tag) (v : Vals) : Rcd := ⟨e, t, v.1, v.2.1, v.2.2⟩

open Classical in
/-- The records of `e` with a tag of `T` change by `f`; one that is missing starts with zeros. -/
noncomputable def bump (e : Sds) (T : Set Tag) (f : Vals → Vals) (ρ : Tab) : Tab := fun e' t =>
  if e' = e ∧ t ∈ T then some (f ((ρ e' t).getD 0)) else ρ e' t

section Table

variable {ρ : Tab} {e k : Sds} {t : Tag} {T : Set Tag} {f : Vals → Vals}

theorem bump_pos (h : k = e ∧ t ∈ T) : bump e T f ρ k t = some (f ((ρ k t).getD 0)) := if_pos h

theorem bump_neg (h : ¬ (k = e ∧ t ∈ T)) : bump e T f ρ k t = ρ k t := if_neg h

theorem eq_rcd_of_mem {r : Rcd} (hr : r ∈ recs ρ) : r = rcd r.key r.t ((ρ r.key r.t).getD 0) := by
  rw [(hr : ρ r.key r.t = _)]
  rfl

theorem element_recs : element (recs ρ) e t = rcd e t ((ρ e t).getD 0) := by
  have heq : ∀ r ∈ recs ρ, r.key = e → r.t = t → r = rcd e t ((ρ e t).getD 0) := by
    rintro r hr rfl rfl
    exact eq_rcd_of_mem hr
  rw [element]
  split
  · rename_i h
    obtain ⟨hmem, hkey, ht⟩ := h.choose_spec
    exact heq _ hmem hkey ht
  · rename_i h
    cases hρ : ρ e t with
    | none => rfl
    | some v => exact absurd ⟨rcd e t v, hρ, rfl, rfl⟩ h

/-- A change of all records of `e` with a tag of `T`. -/
theorem recs_bump (T : Set Tag) (f : Vals → Vals) :
    recs ρ \ element (recs ρ) e '' T ∪ (fun t => rcd e t (f ((ρ e t).getD 0))) '' T =
      recs (bump e T f ρ) := by
  ext r
  have hold : r ∈ recs ρ \ element (recs ρ) e '' T ↔ r ∈ recs ρ ∧ ¬ (r.key = e ∧ r.t ∈ T) := by
    refine and_congr_right fun hr => not_congr ⟨?_, ?_⟩
    · rintro ⟨t, ht, rfl⟩
      rw [element_recs]
      exact ⟨rfl, ht⟩
    · rintro ⟨rfl, ht⟩
      exact ⟨r.t, ht, element_recs.trans (eq_rcd_of_mem hr).symm⟩
  have hnew : r ∈ (fun t => rcd e t (f ((ρ e t).getD 0))) '' T ↔
      (r.key = e ∧ r.t ∈ T) ∧ f ((ρ e r.t).getD 0) = (r.v_inn, r.v_acq, r.change) := by
    constructor
    · rintro ⟨t, ht, rfl⟩
      exact ⟨⟨rfl, ht⟩, rfl⟩
    · rintro ⟨⟨rfl, ht⟩, hf⟩
      refine ⟨r.t, ht, ?_⟩
      simp only [hf]
      rfl
  rw [Set.mem_union, hold, hnew]
  by_cases h : r.key = e ∧ r.t ∈ T
  · simp [recs, bump, h]
  · simp [recs, bump, h]

end Table

/-! ## Strong eventual consistency -/

/-- The element of an operation. -/
def Op.key : Op → Sds
  | .add e _ _ | .remove e _ | .increase e _ _ => e

/-- The tags whose records change. -/
def Op.tags : Op → Set Tag
  | .add _ _ t => {t}
  | .remove _ _ => ∅
  | .increase _ _ O => O

/-- How they change. -/
def Op.change : Op → Vals → Vals
  | .add _ x _, v => (x, v.2)
  | .remove _ _, v => v
  | .increase _ i _, v => (v.1, v.2.1 + i, v.2.2 + |i|)

/-- The tags that are removed. -/
def Op.removed : Op → Set Rmv
  | .remove e O => Rmv.mk e '' O
  | _ => ∅

/-- The sets of a process: the table of `a_set`, and `r_set`. -/
abbrev Sets := Tab × Set Rmv

/-- What an operation does to the sets. -/
noncomputable def step (s : Sets) (m : Op) : Sets :=
  (bump m.key m.tags m.change s.1, s.2 ∪ m.removed)

/-- The process has these sets. -/
def Shows (l : Loc) (s : Sets) : Prop := l.a_set = recs s.1 ∧ l.r_set = s.2

theorem Shows.effect {l : Loc} {s : Sets} (h : Shows l s) (m : Op) :
    Shows (effect m l) (step s m) := by
  obtain ⟨ha, hr⟩ := h
  have hb := recs_bump (ρ := s.1) (e := m.key) m.tags m.change
  cases m with
  | add e x t =>
    refine ⟨.trans ?_ hb, hr.trans (Set.union_empty _).symm⟩
    change setUpdate l.a_set (element l.a_set e t) _ = _
    rw [setUpdate, ha, element_recs]
    simp only [Op.key, Op.tags, Set.image_singleton, element_recs]
    rfl
  | remove e O =>
    refine ⟨.trans ?_ hb, congrArg (· ∪ Rmv.mk e '' O) hr⟩
    simp only [Op.tags, Set.image_empty, Set.sdiff_empty, Set.union_empty]
    exact ha
  | increase e i O =>
    refine ⟨.trans ?_ hb, hr.trans (Set.union_empty _).symm⟩
    change l.a_set \ element l.a_set e '' O ∪ _ '' (element l.a_set e '' O) = _
    rw [ha, Set.image_image]
    simp only [Op.key, Op.tags, element_recs]
    rfl

/-- Changes of the same table commute if they commute at each record. -/
theorem bump_comm {e e' : Sds} {T T' : Set Tag} {f f' : Vals → Vals}
    (h : e = e' → ∀ t ∈ T, t ∈ T' → ∀ v, f (f' v) = f' (f v)) (ρ : Tab) :
    bump e T f (bump e' T' f' ρ) = bump e' T' f' (bump e T f ρ) := by
  funext k t
  by_cases h₁ : k = e ∧ t ∈ T <;> by_cases h₂ : k = e' ∧ t ∈ T'
  · rw [bump_pos h₁, bump_pos h₂, bump_pos h₂, bump_pos h₁, Option.getD_some, Option.getD_some,
      h (h₁.1.symm.trans h₂.1) t h₁.2 h₂.2]
  · rw [bump_pos h₁, bump_neg h₂, bump_neg h₂, bump_pos h₁]
  · rw [bump_neg h₁, bump_pos h₂, bump_pos h₂, bump_neg h₁]
  · rw [bump_neg h₁, bump_neg h₂, bump_neg h₂, bump_neg h₁]

/-- Operations commute, but for two adds of one tag. -/
theorem step_comm {m m' : Op} (h : ∀ e x x' t, m = .add e x t → m' = .add e x' t → x = x')
    (s : Sets) : step (step s m) m' = step (step s m') m := by
  refine Prod.ext (bump_comm (fun he t ht' ht v => ?_) s.1) (Set.union_right_comm ..)
  cases m with
  | remove e O => rfl
  | add e x t₁ =>
    cases m' with
    | remove e' O' => rfl
    | increase e' i' O' => rfl
    | add e' x' t₂ =>
      obtain rfl : t = t₂ := ht'
      obtain rfl : t = t₁ := ht
      rw [h e x x' t rfl (congrArg (Op.add · x' t) he)]
      rfl
  | increase e i O =>
    cases m' with
    | remove e' O' => rfl
    | add e' x' t' => rfl
    | increase e' i' O' =>
      simp only [Op.change, Prod.mk.injEq, true_and]
      constructor <;> ring

/-- Each process numbers its adds. -/
structure Tags (s : Sys (Fin n) Loc Op) : Prop where
  num : ∀ i o e x t, s.log i = some (o, .add e x t) → t.1 = proc o ∧ t.2 < (s.st o).num
  inj : ∀ i j o o' e e' x x' t, s.log i = some (o, .add e x t) →
    s.log j = some (o', .add e' x' t) → i = j

theorem proc_inj {r q : Fin n} (h : proc r = proc q) : r = q := by
  simp only [proc] at h
  omega

/-- Only an add takes a number. -/
theorem prepare_cases {self : Fin n} {s l : Loc} {c : Req} {m : Op}
    (h : prepare self s c = some (l, m)) :
    (∃ e x, m = .add e x (proc self, s.num) ∧ l = { s with num := s.num + 1 }) ∨
      (l = s ∧ ∀ e x t, m ≠ .add e x t) := by
  cases c with
  | add e x =>
    rw [prepare] at h
    split at h
    · cases h
      exact .inl ⟨e, x, rfl, rfl⟩
    · cases h
  | remove e =>
    rw [prepare] at h
    split at h
    · cases h
      exact .inr ⟨rfl, by simp⟩
    · cases h
  | increase e i =>
    rw [prepare] at h
    split at h
    · cases h
      exact .inr ⟨rfl, by simp⟩
    · cases h

@[simp] theorem effect_num (m : Op) (l : Loc) : (effect m l).num = l.num := by
  cases m <;> rfl

section Runs

variable {s : Sys (Fin n) Loc Op} {G : Sys (Fin n) Loc Op → Ev (Fin n) Req → Prop}

/-- The add of a new message has the number of its process. -/
theorem Tags.new {r : Fin n} {s₁ : Loc} {c : Req} {e : Sds} {x : ℚ} {t : Tag}
    (h : prepare r (s.st r) c = some (s₁, .add e x t)) :
    t = (proc r, (s.st r).num) ∧ s₁.num = (s.st r).num + 1 := by
  rcases prepare_cases h with ⟨e', x', hm, rfl⟩ | ⟨-, hne⟩
  · cases hm
    exact ⟨rfl, rfl⟩
  · exact absurd rfl (hne e x t)

section Issue

variable {r : Fin n} {s₁ : Loc} {c : Req} {m : Op} (hp : prepare r (s.st r) c = some (s₁, m))
  (i : ℕ)

include hp

/-- The counter of a process does not go back. -/
theorem num_le_issue (q : Fin n) :
    (s.st q).num ≤ (((algorithm n).obj.issue s r i s₁ m).st q).num := by
  by_cases hq : q = r
  · subst hq
    rw [Obj.issue_st_self]
    change _ ≤ (effect m s₁).num
    rw [effect_num]
    rcases prepare_cases hp with ⟨e, x, -, rfl⟩ | ⟨rfl, -⟩
    · exact (lt_add_one _).le
    · exact le_rfl
  · rw [Obj.issue_st_ne hq]

theorem Tags.issue (h : Tags s) : Tags ((algorithm n).obj.issue s r i s₁ m) := by
  have hnew : ∀ {j o e e' x x' t}, s.log j = some (o, .add e x t) → m ≠ .add e' x' t := by
    rintro j o e e' x x' t hj rfl
    obtain ⟨rfl, -⟩ := Tags.new hp
    obtain ⟨ho, hlt⟩ := h.num j o e x _ hj
    rw [proc_inj ho] at hlt
    exact lt_irrefl _ hlt
  refine ⟨fun j o e x t hj => ?_, fun j j' o o' e e' x x' t hj hj' => ?_⟩
  · rcases Obj.issue_log_cases hj with ⟨rfl, hx⟩ | ⟨-, hj⟩
    · cases hx
      obtain ⟨rfl, hs₁⟩ := Tags.new hp
      refine ⟨rfl, ?_⟩
      rw [Obj.issue_st_self]
      change _ < (effect _ s₁).num
      rw [effect_num, hs₁]
      exact lt_add_one _
    · obtain ⟨ho, hlt⟩ := h.num j o e x t hj
      exact ⟨ho, hlt.trans_le (num_le_issue hp i o)⟩
  · rcases Obj.issue_log_cases hj with ⟨rfl, hx⟩ | ⟨-, h₁⟩ <;>
      rcases Obj.issue_log_cases hj' with ⟨rfl, hx'⟩ | ⟨-, h₂⟩
    · rfl
    · exact absurd (Prod.mk.inj hx).2.symm (hnew h₂)
    · exact absurd (Prod.mk.inj hx').2.symm (hnew h₁)
    · exact h.inj j j' o o' e e' x x' t h₁ h₂

end Issue

theorem Tags.deliver (h : Tags s) (r : Fin n) (i : ℕ) (m : Op) :
    Tags ((algorithm n).obj.deliver s r i m) := by
  refine ⟨fun j q e x t hj => ?_, h.inj⟩
  obtain ⟨hq, hlt⟩ := h.num j q e x t hj
  refine ⟨hq, ?_⟩
  by_cases hqr : q = r
  · subst hqr
    rw [Obj.deliver_st_self]
    exact hlt.trans_eq (effect_num m _).symm
  · rw [Obj.deliver_st_ne hqr]
    exact hlt

theorem tags (hs : (algorithm n).obj.Reach G s) : Tags s := by
  refine hs.rule ⟨by simp [Obj.start], by simp [Obj.start]⟩ ?_ ?_ ?_
  · intro s r o i s₁ _ h _ hp
    rw [Algorithm.obj_prepare_none hp, Obj.reject, Function.update_eq_self]
    exact h
  · intro s r c i s₁ m _ h _ hp _
    exact h.issue (Algorithm.obj_prepare_some hp) i
  · intro s r i o m _ h _ _ _
    exact h.deliver r i m

/-- What an operation does to `a_set` and `r_set`. -/
noncomputable def effectSets (p : Set Rcd × Set Rmv) (m : Op) : Set Rcd × Set Rmv :=
  ((effect m ⟨p.1, p.2, 0⟩).a_set, (effect m ⟨p.1, p.2, 0⟩).r_set)

theorem effectSets_foldl (L : List Op) :
    L.foldl effectSets (∅, ∅) =
      (recs (L.foldl step (fun _ _ => none, ∅)).1, (L.foldl step (fun _ _ => none, ∅)).2) := by
  induction L using List.reverseRecOn with
  | nil =>
    refine Prod.ext ?_ rfl
    simp [recs]
  | append_singleton L m ih =>
    rw [List.foldl_concat, List.foldl_concat, ih]
    have h : Shows ⟨recs (L.foldl step (fun _ _ => none, ∅)).1,
      (L.foldl step (fun _ _ => none, ∅)).2, 0⟩ (L.foldl step (fun _ _ => none, ∅)) := ⟨rfl, rfl⟩
    exact Prod.ext (h.effect m).1 (h.effect m).2

/-- Processes that applied the same operations have the same sets. -/
theorem sets_eq (hs : (algorithm n).obj.Reach G s) {p q : Fin n} (h : s.recv p = s.recv q) :
    (s.st p).a_set = (s.st q).a_set ∧ (s.st p).r_set = (s.st q).r_set := by
  have hfold := hs.fold (f := fun _ l => (l.a_set, l.r_set)) (g := fun _ => effectSets)
    (fun r x c x₁ m hp => ?_) fun r x m => by cases m <;> rfl
  · obtain ⟨lp, hndp, hmemp, hp⟩ := hfold p
    obtain ⟨lq, hndq, hmemq, hq⟩ := hfold q
    have hperm : lp.Perm lq := (List.perm_ext_iff_of_nodup hndp hndq).mpr fun i => by
      rw [hmemp, hmemq, h]
    -- No two operations that were applied are adds of one tag.
    have hcomm : ∀ m ∈ lp.filterMap s.msg, ∀ m' ∈ lp.filterMap s.msg, ∀ z,
        step (step z m) m' = step (step z m') m := fun m hm m' hm' z => by
      obtain ⟨i, -, hi⟩ := List.mem_filterMap.mp hm
      obtain ⟨j, -, hj⟩ := List.mem_filterMap.mp hm'
      obtain ⟨⟨o, m₁⟩, hli, rfl⟩ := Option.map_eq_some_iff.mp hi
      obtain ⟨⟨o', m₂⟩, hlj, rfl⟩ := Option.map_eq_some_iff.mp hj
      refine step_comm (fun e x x' t h₁ h₂ => ?_) z
      dsimp only at h₁ h₂
      subst h₁ h₂
      obtain rfl := (tags hs).inj i j o o' e e x x' t hli hlj
      rw [hli] at hlj
      cases hlj
      rfl
    have heq := (hperm.filterMap s.msg).foldl_eq' hcomm (fun _ _ => none, ∅)
    have hsets : ((s.st p).a_set, (s.st p).r_set) = ((s.st q).a_set, (s.st q).r_set) := by
      refine hp.trans (.trans ?_ hq.symm)
      change List.foldl effectSets (∅, ∅) _ = List.foldl effectSets (∅, ∅) _
      rw [effectSets_foldl, effectSets_foldl, heq]
    exact Prod.mk.inj hsets
  · cases m with
    | none => rw [Algorithm.obj_prepare_none hp]
    | some m =>
      rcases prepare_cases (Algorithm.obj_prepare_some hp) with ⟨e, x, -, rfl⟩ | ⟨rfl, -⟩ <;> rfl

end Runs

/-- **Strong eventual consistency of the design**, for every number of processes and bound: in every
reachable state, processes that have the same operations to apply have the same sets. -/
theorem addwin_sec {maxOps : ℕ} {d : Design.St (Fin n) Loc Op}
    (hd : (algorithm n).Reach maxOps d) : SEC d := by
  rintro p q ⟨-, hops⟩
  obtain ⟨s, hs, hrel⟩ := hd.sys
  have h := sets_eq hs (hrel.recv_eq hs.wf hops)
  rwa [hrel.loc p, hrel.loc q] at h

/-- Process 1 adds an element and process 2 receives the add. -/
theorem addwin_sec_shared : ∃ d : Design.St (Fin 2) Loc Op, (algorithm 2).Reach 1 d ∧
    d.ops 0 = d.ops 1 ∧ (d.loc 1).a_set = {⟨"e".toList, (1, 0), 10, 0, 0⟩} ∧ SEC d := by
  let A := algorithm 2
  let m : Op := .add "e".toList 10 (1, 0)
  have hlook : ¬ lookup (∅ : Set Rcd) ∅ "e".toList := by simp [lookup, observeT, tSet]
  have hp : A.prepare 0 (A.start.loc 0) (.add "e".toList 10) = some (⟨∅, ∅, 1⟩, m) :=
    if_pos hlook
  let d₁ : Design.St (Fin 2) Loc Op := ⟨Design.broadcast A.start.ops 0 (1, m), 1,
    Function.update A.start.loc 0 (effect m ⟨∅, ∅, 1⟩)⟩
  have h₁ : A.Reach 1 d₁ := .step .start (.issue Nat.zero_lt_one hp)
  have hx : (1, m) ∈ d₁.ops 1 := .inr rfl
  have h₂ := h₁.step (.receive hx trivial)
  refine ⟨_, h₂, ?_, ?_, addwin_sec h₂⟩
  · simp [d₁, Design.broadcast, A, Algorithm.start]
  · have hel : element ∅ "e".toList (1, 0) = ⟨"e".toList, (1, 0), 0, 0, 0⟩ := dif_neg (by simp)
    change setUpdate ∅ (element ∅ "e".toList (1, 0)) ⟨_, _, 10,
      (element ∅ "e".toList (1, 0)).v_acq, (element ∅ "e".toList (1, 0)).change⟩ = _
    rw [setUpdate, hel, Set.empty_sdiff, Set.empty_union]

end AddwinRpq

end CrdtRedis
