import CrdtRedis.Broadcast.Algorithm
import CrdtRedis.Design.RwfRpq
import CrdtRedis.RemoveWinRuns

/-!
# The design of the Remove-Win priority queue (`rmvwin_rpq.tla`)

A process of the design takes an operation out of `ops` only when it is causally ready for it; the
code receives it at any time and keeps it in a buffer. The design compares timestamps with the
reflexive `VC_Less`, the code with `vc_cmp`, which also looks at the origins. The timestamps of a
history in causal order are compared in the same way by both.

* `locOf_exec`: an operation of the code is one of the design, at the end of such a history.
* `rz_refines_rmvwin`: every run of the code, with every order of delivery, is one of the design,
  whose `ops` has what was not received or is in the buffer.
* `rmvwin_covers`: every run of the design is one of the code, where nothing ever waits in a buffer.
* `rmvwin_sec`, `rmvwin_rcd_concurrent`: so what holds of the code is the invariants `SEC` and
  `Rcd_Concurrent` of the design, for every number of processes, bound and constants.

The design has one element. The constants `Values` and `Increments` only limit the requests; here
there is no limit. The processes are `1..N`, `r : Fin n` is process `r + 1`.
-/

namespace CrdtRedis

open Broadcast

namespace RmvwinRpq

open RwfRpq (proc)

variable {n : ℕ}

/-! ## The design -/

/-- A vector clock. -/
abbrev Vec (n : ℕ) := Fin n → ℤ

/-- `VC_Inc`. -/
def vcInc (vc : Vec n) (self : Fin n) : Vec n := fun j => if j = self then vc j + 1 else vc j

/-- `VC_Max`. -/
def vcMax (a b : Vec n) : Vec n := fun j => if a j ≤ b j then b j else a j

/-- `VC_Less`. -/
def VcLess (a b : Vec n) : Prop := ∀ j, a j ≤ b j

/-- `VC_Concurrent`. -/
def VcConcurrent (a b : Vec n) : Prop := (∃ i, a i < b i) ∧ ∃ j, a j > b j

/-- `Causally_Ready`. -/
def CausallyReady (msg : Vec n) (pid : ℤ) (vc : Vec n) : Prop :=
  ∀ j, (proc j = pid ∧ msg j = vc j + 1) ∨ (proc j ≠ pid ∧ msg j ≤ vc j)

/-- A record of `a_set`. -/
structure Rcd (n : ℕ) where
  t : Vec n
  pid : ℤ
  v_inn : ℚ
  v_acq : ℚ

/-- The variables of a process. -/
@[ext] structure Loc (n : ℕ) where
  a_set : Set (Rcd n)
  r_set : Set (Vec n)
  local_vc : Vec n

/-- `_Lookup`. -/
def lookup (a_set : Set (Rcd n)) (r_set : Set (Vec n)) : Prop := a_set ≠ ∅ ∧ r_set = ∅

/-- The record `p` of an operation: what `_Add`, `_Increase` and `_Remove` make. -/
inductive Op (n : ℕ) where
  | add (pid : ℤ) (t : Vec n) (val : ℚ)
  | increase (pid : ℤ) (t : Vec n) (val : ℚ)
  | remove (pid : ℤ) (t : Vec n)

def Op.pid : Op n → ℤ
  | .add pid _ _ | .increase pid _ _ | .remove pid _ => pid

def Op.t : Op n → Vec n
  | .add _ t _ | .increase _ t _ | .remove _ t => t

/-- What a process asks for. -/
inductive Req where
  | add (x : ℚ)
  | increase (i : ℚ)
  | remove

open Classical in
/-- `_Add`, `_Increase` and `_Remove`; `none` is the record with `pid` -1. -/
noncomputable def prepare (self : Fin n) (s : Loc n) : Req → Option (Op n)
  | .add x =>
    if ¬ lookup s.a_set s.r_set then some (.add (proc self) (vcInc s.local_vc self) x) else none
  | .increase i =>
    if lookup s.a_set s.r_set then some (.increase (proc self) (vcInc s.local_vc self) i) else none
  | .remove =>
    if lookup s.a_set s.r_set then some (.remove (proc self) (vcInc s.local_vc self)) else none

/-- The macro `Add`. -/
def add (x : ℚ) (t : Vec n) (pid : ℤ) (s : Loc n) : Loc n where
  a_set := s.a_set \ {ar ∈ s.a_set | VcLess ar.t t} ∪ {⟨t, pid, x, 0⟩}
  r_set := s.r_set \ {rt ∈ s.r_set | VcLess rt t}
  local_vc := vcMax s.local_vc t

/-- The macro `Remove`. -/
def remove (t : Vec n) (s : Loc n) : Loc n where
  r_set := s.r_set ∪ {t}
  a_set := s.a_set \ {ar ∈ s.a_set | VcLess ar.t t}
  local_vc := vcMax s.local_vc t

/-- The macro `Increase`. -/
def increase (i : ℚ) (t : Vec n) (s : Loc n) : Loc n :=
  let inc_ars := {ar ∈ s.a_set | VcLess ar.t t}
  { s with
    a_set := s.a_set \ inc_ars ∪
      (fun rcd : Rcd n => ⟨rcd.t, rcd.pid, rcd.v_inn, rcd.v_acq + i⟩) '' inc_ars
    local_vc := vcMax s.local_vc t }

/-- What a process does with an operation, its own or one of `ops`. -/
def effect : Op n → Loc n → Loc n
  | .add pid t val => add val t pid
  | .increase _ t val => increase val t
  | .remove _ t => remove t

/-- The algorithm. -/
noncomputable def algorithm (n : ℕ) : Algorithm (Fin n) (Loc n) Req (Op n) where
  init _ := ⟨∅, ∅, fun _ => 0⟩
  prepare self s c := (prepare self s c).map (s, ·)
  ready s m := CausallyReady m.t m.pid s.local_vc
  effect := effect

/-- `SEC`. -/
def SEC (d : Design.St (Fin n) (Loc n) (Op n)) : Prop :=
  ∀ p₁ p₂, p₁ ≠ p₂ ∧ d.ops p₁ = d.ops p₂ →
    (d.loc p₁).a_set = (d.loc p₂).a_set ∧ (d.loc p₁).r_set = (d.loc p₂).r_set

/-- `Rcd_Concurrent`, of any process: `AA_Con`, `AR_Con` and `RR_Con`. -/
structure RcdConcurrent (s : Loc n) : Prop where
  aa : ∀ rcd₁ ∈ s.a_set, ∀ rcd₂ ∈ s.a_set, rcd₁.t ≠ rcd₂.t → VcConcurrent rcd₁.t rcd₂.t
  ar : ∀ rcd ∈ s.a_set, ∀ t ∈ s.r_set, VcConcurrent rcd.t t
  rr : ∀ t₁ ∈ s.r_set, ∀ t₂ ∈ s.r_set, t₁ ≠ t₂ → VcConcurrent t₁ t₂

/-! ## The relation -/

/-- The vector of a clock. -/
def vecOf (t : Clock n) : Vec n := fun j => (t.vector j : ℤ)

def rcdOf (a : RzAse n) : Rcd n := ⟨vecOf a.t, proc a.t.id, a.x, a.inc⟩

/-- The variables of a process that has what an element has. -/
def locOf (c : RzCell n) : Loc n where
  a_set := rcdOf '' {a | a ∈ c.e.sets.aset}
  r_set := vecOf '' {t | t ∈ c.e.sets.rset}
  local_vc := vecOf c.e.current

/-- The operation of a message. -/
def opOf : RzMsg n → Op n
  | .add v t => .add (proc t.id) (vecOf t) v
  | .upd v t => .increase (proc t.id) (vecOf t) v
  | .rem t => .remove (proc t.id) (vecOf t)

/-- The request of a command whose arguments are accepted. -/
def reqOf : ZCmd → Option Req
  | .zadd argc v => (checkArgc 4 argc).toOption.bind fun _ => v.map .add
  | .zincrby argc v => (checkArgc 4 argc).toOption.bind fun _ => v.map .increase
  | .zrem argc => (checkArgc 3 argc).toOption.map fun _ => .remove

/-- An element and a process, with the operations in the buffer. -/
def Related (r : Fin n) (c : Option (RzCell n)) (s : Loc n) (buf : List (Op n)) : Prop :=
  s = locOf (c.getD (rzCellNew r)) ∧ buf = (c.getD (rzCellNew r)).e.ops.map opOf

/-! ## Clocks -/

section Clocks

variable {t c : Clock n}

theorem vcLess_vecOf : VcLess (vecOf t) (vecOf c) ↔ t.vector ≤ c.vector := by
  simp [VcLess, vecOf, Pi.le_def]

theorem vcMax_vecOf : vcMax (vecOf c) (vecOf t) = vecOf (vcUpdate c t) := by
  funext j
  simp only [vcMax, vecOf, vcUpdate_vector, Pi.sup_apply, Nat.cast_le]
  split <;> simp_all [le_of_lt]

theorem vcInc_vecOf : vcInc (vecOf c) c.id = vecOf (vcNow c) := by
  funext j
  by_cases hj : j = c.id
  · subst hj
    simp [vcInc, vecOf, vcNow_self]
  · simp [vcInc, vecOf, hj, vcNow_ne c hj]

theorem causallyReady_vecOf :
    CausallyReady (vecOf t) (proc t.id) (vecOf c) ↔ vcCausallyReady c t = true := by
  have hproc : ∀ j : Fin n, proc j = proc t.id ↔ j = t.id := fun j => by
    simp [proc, Fin.ext_iff]
  simp only [CausallyReady, hproc, vcCausallyReady, vecOf, Bool.and_eq_true, decide_eq_true_iff,
    beq_iff_eq]
  constructor
  · intro h
    refine ⟨fun j hj => ?_, ?_⟩
    · have hle := ((h j).resolve_left fun h => hj h.1).2
      exact_mod_cast hle
    · have heq := ((h t.id).resolve_right fun h => h.1 rfl).2
      exact_mod_cast heq
  · rintro ⟨hle, heq⟩ j
    by_cases hj : j = t.id
    · subst hj
      exact .inl ⟨rfl, by exact_mod_cast heq⟩
    · exact .inr ⟨fun h => hj ((hproc j).mp h), by exact_mod_cast hle j hj⟩

theorem vcConcurrent_of_apart (h : Apart t c) : VcConcurrent (vecOf t) (vecOf c) := by
  have hlt : ∀ a b : Clock n, ¬ a.vector ≤ b.vector → ∃ i, vecOf b i < vecOf a i := by
    intro a b hab
    simpa [Pi.le_def, vecOf] using hab
  exact ⟨hlt c t h.not_ge, hlt t c h.not_le⟩

end Clocks

/-! ## An operation -/

section Image

variable {X Y : Type} {f : X → Y} {l : List X} {p : X → Bool} {P : Y → Prop}
  (h : ∀ x ∈ l, p x = true ↔ P (f x))

include h

/-- The entries of a list that are not dropped, read as records. -/
theorem image_filter : f '' {x | x ∈ l.filter fun x => !p x} =
    f '' {x | x ∈ l} \ {y ∈ f '' {x | x ∈ l} | P y} := by
  ext y
  constructor
  · rintro ⟨x, hx, rfl⟩
    obtain ⟨hx, hp⟩ := List.mem_filter.mp hx
    refine ⟨⟨x, hx, rfl⟩, fun hP => ?_⟩
    rw [(h x hx).mpr hP.2] at hp
    cases hp
  · rintro ⟨⟨x, hx, rfl⟩, hP⟩
    refine ⟨x, List.mem_filter.mpr ⟨hx, ?_⟩, rfl⟩
    rw [Bool.not_eq_true', ← Bool.not_eq_true, h x hx]
    exact fun hp => hP ⟨⟨x, hx, rfl⟩, hp⟩

/-- The entries that change, read as records. -/
theorem image_map_ite {g : X → X} {g' : Y → Y} (hg : ∀ x, f (g x) = g' (f x)) :
    f '' {x | x ∈ l.map fun x => if p x then g x else x} =
      f '' {x | x ∈ l} \ {y ∈ f '' {x | x ∈ l} | P y} ∪ g' '' {y ∈ f '' {x | x ∈ l} | P y} := by
  ext y
  constructor
  · rintro ⟨z, hz, rfl⟩
    obtain ⟨x, hx, rfl⟩ := List.mem_map.mp hz
    by_cases hp : p x = true
    · rw [if_pos hp, hg]
      exact .inr ⟨f x, ⟨⟨x, hx, rfl⟩, (h x hx).mp hp⟩, rfl⟩
    · rw [if_neg hp]
      exact .inl ⟨⟨x, hx, rfl⟩, fun hP => hp ((h x hx).mpr hP.2)⟩
  · rintro (⟨⟨x, hx, rfl⟩, hP⟩ | ⟨-, ⟨⟨x, hx, rfl⟩, hP⟩, rfl⟩)
    · have hp : p x ≠ true := fun hp => hP ⟨⟨x, hx, rfl⟩, (h x hx).mp hp⟩
      exact ⟨x, List.mem_map.mpr ⟨x, hx, if_neg hp⟩, rfl⟩
    · exact ⟨g x, List.mem_map.mpr ⟨x, hx, if_pos ((h x hx).mpr hP)⟩, hg x⟩

end Image

theorem opOf_t (m : RzMsg n) : (opOf m).t = vecOf m.t := by
  cases m <;> rfl

theorem opOf_pid (m : RzMsg n) : (opOf m).pid = proc m.t.id := by
  cases m <;> rfl

section Exec

variable {c : RzCell n} {m : RzMsg n}

/-- Both comparisons of a timestamp of the history with that of the next message. -/
theorem before_iff_vcLess {H : List (RzMsg n)} (h : CausalHist (H ++ [m])) {m' : RzMsg n}
    (hm' : m' ∈ H) : before m'.t m.t = true ↔ VcLess (vecOf m'.t) (vecOf m.t) := by
  rw [h.before_iff m' m (by simp [hm']) (by simp), vcLess_vecOf]
  exact ⟨le_of_lt, fun hle => hle.lt_of_not_ge (h.last m' hm')⟩

/-- The stored timestamps are those of messages. -/
theorem stamps_hist (hf : RzFold c) (hH : CausalHist c.hist) :
    (∀ a ∈ c.e.sets.aset, ∃ m' ∈ c.hist, m'.t = a.t) ∧
      ∀ t ∈ c.e.sets.rset, ∃ m' ∈ c.hist, m'.t = t := by
  have hc : RwClosed (rzKind n) c.hist c.e.sets := by
    rw [hf.sets]
    exact rwFold_closed hH
  constructor
  · intro a ha
    obtain ⟨v, t, hadd, -, rfl⟩ := (hc.aset a).mp ha
    exact ⟨_, hadd, by rw [rwEntry_rz]; rfl⟩
  · intro t ht
    exact ⟨_, ((hc.rset t).mp ht).1, rfl⟩

/-- An operation of the code is one of the design. -/
theorem locOf_exec (hf : RzFold c) (hH : CausalHist (c.hist ++ [m])) :
    locOf (rzExec c m) = effect (opOf m) (locOf c) := by
  obtain ⟨ha, hr⟩ := stamps_hist hf hH.init
  have hlessA : ∀ a ∈ c.e.sets.aset, before a.t m.t = true ↔ VcLess (rcdOf a).t (vecOf m.t) :=
    fun a hmem => by
      obtain ⟨m', hm', ht⟩ := ha a hmem
      rw [← ht, before_iff_vcLess hH hm', ht]
      rfl
  have hlessR : ∀ t ∈ c.e.sets.rset, before t m.t = true ↔ VcLess (vecOf t) (vecOf m.t) :=
    fun t hmem => by
      obtain ⟨m', hm', rfl⟩ := hr t hmem
      exact before_iff_vcLess hH hm'
  have hkeptA : rcdOf '' {a | a ∈ c.e.sets.aset.filter fun a => !before a.t m.t} =
      (locOf c).a_set \ {ar ∈ (locOf c).a_set | VcLess ar.t (vecOf m.t)} :=
    image_filter (P := fun ar : Rcd n => VcLess ar.t (vecOf m.t)) hlessA
  have hkeptR : vecOf '' {t | t ∈ c.e.sets.rset.filter fun t => !before t m.t} =
      (locOf c).r_set \ {rt ∈ (locOf c).r_set | VcLess rt (vecOf m.t)} :=
    image_filter (P := fun rt => VcLess rt (vecOf m.t)) hlessR
  have hvc : (locOf (rzExec c m)).local_vc = vcMax (locOf c).local_vc (vecOf m.t) := by
    simp only [locOf, vcMax_vecOf, (rzExec_step c m).current]
  cases m with
  | add v t =>
    have haset : {a | a ∈ (rzExec c (.add v t)).e.sets.aset} =
        {a | a ∈ c.e.sets.aset.filter fun a => !before a.t t} ∪ {⟨t, v, 0⟩} := by
      ext a
      rw [(rzExec_step c _).sets, RwSets.exec, Set.mem_ofPred_eq, RwSets.add_aset]
      exact List.mem_append.trans (or_congr_right List.mem_singleton)
    refine Loc.ext ?_ ?_ hvc
    · refine (congrArg (rcdOf '' ·) haset).trans ?_
      rw [Set.image_union, Set.image_singleton]
      exact congrArg (· ∪ {_}) hkeptA
    · refine .trans ?_ hkeptR
      change vecOf '' {t' | t' ∈ (rzExec c (.add v t)).e.sets.rset} = _
      rw [(rzExec_step c _).sets, RwSets.add_rset]
      rfl
  | upd v t =>
    refine Loc.ext ?_ rfl hvc
    exact image_map_ite (P := fun ar : Rcd n => VcLess ar.t (vecOf t)) hlessA fun a => rfl
  | rem t =>
    have hrset : {t' | t' ∈ (rzExec c (.rem t)).e.sets.rset} = {t | t ∈ c.e.sets.rset} ∪ {t} := by
      ext t'
      exact List.mem_append.trans (or_congr_right List.mem_singleton)
    refine Loc.ext hkeptA ?_ hvc
    refine (congrArg (vecOf '' ·) hrset).trans ?_
    rw [Set.image_union, Set.image_singleton]
    rfl

/-- `LOOKUP` is `_Lookup`. -/
theorem lookup_locOf (c : RzCell n) :
    lookup (locOf c).a_set (locOf c).r_set ↔ c.e.lookup = true := by
  have ha : (locOf c).a_set ≠ ∅ ↔ c.e.sets.aset ≠ [] := by
    rw [← Set.nonempty_iff_ne_empty, locOf, Set.image_nonempty]
    exact ⟨fun h => List.ne_nil_of_mem h.choose_spec, List.exists_mem_of_ne_nil _⟩
  have hr : (locOf c).r_set = ∅ ↔ c.e.sets.rset = [] := by
    rw [locOf, Set.image_eq_empty, List.eq_nil_iff_forall_not_mem]
    exact Set.eq_empty_iff_forall_notMem
  simp [lookup, ha, hr, Rze.lookup, RwSets.lookup]

end Exec

/-! ## The phases -/

section Phases

variable {r : Fin n} {c : Option (RzCell n)}

/-- What the prepare phases send for a request to an element. -/
def sends (x : RzCell n) : Req → Option (RzMsg n)
  | .add v => if x.e.lookup then none else some (.add v (vcNow x.e.current))
  | .increase v => if x.e.lookup then some (.upd v (vcNow x.e.current)) else none
  | .remove => if x.e.lookup then some (.rem (vcNow x.e.current)) else none

theorem rzPrepare_sends (o : ZCmd) :
    (rzPrepare r c o).2.toOption = (reqOf o).bind (sends (c.getD (rzCellNew r))) := by
  cases o with
  | zadd argc v =>
    simp only [rzPrepare, reqOf]
    cases checkArgc 4 argc with
    | error err => rfl
    | ok _ =>
      cases v with
      | none => rfl
      | some v =>
        change Except.toOption (if _ then _ else _) = if _ then _ else _
        cases (c.getD (rzCellNew r)).e.lookup <;> rfl
  | zincrby argc v =>
    simp only [rzPrepare, reqOf]
    cases checkArgc 4 argc with
    | error err => rfl
    | ok _ =>
      cases v with
      | none => rfl
      | some v =>
        cases c with
        | none => rfl
        | some x =>
          rw [Option.getD_some]
          change Except.toOption (if _ then _ else _) = if _ then _ else _
          cases x.e.lookup <;> rfl
  | zrem argc =>
    simp only [rzPrepare, reqOf]
    cases checkArgc 3 argc with
    | error err => rfl
    | ok _ =>
      cases c with
      | none => rfl
      | some x =>
        rw [Option.getD_some]
        change Except.toOption (if _ then _ else _) = if _ then _ else _
        cases x.e.lookup <;> rfl

/-- The operators of the design make the operations of these messages. -/
theorem sends_opOf {x : RzCell n} (hid : x.e.current.id = r) (q : Req) :
    (sends x q).map opOf = prepare r (locOf x) q := by
  have hlook := lookup_locOf x
  have hnow : vcInc (locOf x).local_vc r = vecOf (vcNow x.e.current) := by
    rw [← vcInc_vecOf, hid]
    rfl
  cases hl : x.e.lookup with
  | true => cases q <;> simp [sends, prepare, hlook, hl, opOf, hnow, hid]
  | false => cases q <;> simp [sends, prepare, hlook, hl, opOf, hnow, hid]

/-- The design makes the operation of the message, or turns down what the code rejects. -/
theorem prepare_locOf (hid : (c.getD (rzCellNew r)).e.current.id = r) (o : ZCmd) :
    (rzPrepare r c o).2.toOption.map opOf =
      (reqOf o).bind (prepare r (locOf (c.getD (rzCellNew r)))) := by
  rw [rzPrepare_sends, Option.map_bind]
  exact congrArg _ (funext fun q => sends_opOf hid q)

theorem ready_iff {x : RzCell n} {m : RzMsg n} :
    (algorithm n).ready (locOf x) (opOf m) ↔ rzReady x m = true := by
  change CausallyReady (opOf m).t (opOf m).pid (vecOf x.e.current) ↔ _
  rw [opOf_t, opOf_pid]
  exact causallyReady_vecOf

/-- The loop of the code takes operations that the design can take. -/
theorem drains_notify (k : ℕ) {x : RzCell n} (hx : RzFold x)
    (hH : CausalHist (rzNotify k x).hist) :
    (algorithm n).Drains (locOf x) (x.e.ops.map opOf) (locOf (rzNotify k x))
      ((rzNotify k x).e.ops.map opOf) := by
  refine Algorithm.drains_drain (A := algorithm n) (f := locOf) (g := opOf) (I := RzFold)
    (Q := fun y => CausalHist y.hist) (fun y m hy => hy.exec m) (fun y m hq => ?_)
    (fun y m hr => ready_iff.mpr hr) (fun y m hy hq => ?_) k x x.e.ops hx hH
  · rw [(rzExec_step y m).hist] at hq
    exact hq.init
  · rw [(rzExec_step y m).hist] at hq
    exact locOf_exec hy hq

/-- The effect phase of an operation that is ready: the design takes it, and then what the loop
takes. -/
theorem drains_effect {x : RzCell n} {m : RzMsg n} (hc : c.getD (rzCellNew r) = x) (hx : RzFold x)
    (hready : rzReady x m = true)
    (hH : CausalHist ((rzEffect r c m).getD (rzCellNew r)).hist) :
    ∃ l buf, (algorithm n).Drains (effect (opOf m) (locOf x)) (x.e.ops.map opOf) l buf ∧
      Related r (rzEffect r c m) l buf := by
  have heff : rzEffect r c m = some (rzNotify x.e.ops.length (rzExec x m)) := by
    simp only [rzEffect, hc]
    exact if_pos hready
  rw [heff] at hH ⊢
  have hback : CausalHist (rzExec x m).hist :=
    Algorithm.drain_back (Q := fun y : RzCell n => CausalHist y.hist) (fun y m hq => by
      rw [(rzExec_step y m).hist] at hq
      exact hq.init) _ _ _ hH
  have h := drains_notify _ (hx.exec m) hH
  rw [(rzExec_step x m).hist] at hback
  rw [locOf_exec hx hback, (rzExec_step x m).ops] at h
  exact ⟨_, _, h, rfl, rfl⟩

/-- A replica is ready for its own operations. -/
theorem ready_sent {o : ZCmd} {m : RzMsg n} (h : (rzPrepare r c o).2.toOption = some m) :
    rzReady (c.getD (rzCellNew r)) m = true := by
  rw [rzReady, (rzPrepare_sent h).t, vcCausallyReady, Bool.and_eq_true, decide_eq_true_iff,
    beq_iff_eq]
  exact ⟨fun i hi => (vcNow_ne (c.getD (rzCellNew r)).e.current hi).le, vcNow_self _⟩

theorem locOf_new (r : Fin n) : locOf (rzCellNew r) = ⟨∅, ∅, fun _ => 0⟩ := by
  have hvec : vecOf (vcNew r) = fun _ => 0 := rfl
  simp [locOf, rzCellNew, rzeNew, RwSets.new, hvec]

theorem prepare_some {s l : Loc n} {q : Req} {m : Op n}
    (h : (algorithm n).prepare r s q = some (l, m)) : l = s ∧ prepare r s q = some m := by
  obtain ⟨m', hm, heq⟩ := Option.map_eq_some_iff.mp h
  cases heq
  exact ⟨rfl, hm⟩

end Phases

/-! ## Runs of the code -/

section Runs

variable {s : Sys (Fin n) (Option (RzCell n)) (RzMsg n)}

theorem rzEle_id (hs : (rzEleObj n).Reach anyOrder s) (r : Fin n) :
    (rzCellAt s r).e.current.id = r :=
  (View.causal_inv (v := rzView n) (fun _ => rfl) (fun _ _ _ _ _ => trivial) hs).2 r

theorem implements (n : ℕ) :
    Implements (rzEleObj n) (algorithm n) Related opOf reqOf anyOrder := by
  refine ⟨fun r => ⟨(locOf_new r).symm, rfl⟩, ?_, ?_, ?_⟩
  · rintro s r o i c₁ res l buf hs - ⟨rfl, rfl⟩ hp
    obtain ⟨rfl, rfl⟩ := Prod.mk.inj hp
    refine ⟨?_, fun _ => by rw [Related, rzPrepare_get]; exact ⟨rfl, rfl⟩⟩
    rw [prepare_locOf (rzEle_id hs r)]
    cases reqOf o with
    | none => rfl
    | some q => simp [algorithm, Option.map_map]
  · rintro s r o i c₁ m l buf q l₁ hs hg hl ⟨rfl, rfl⟩ hp - hq
    have hs' : (rzEleObj n).Reach anyOrder ((rzEleObj n).issue s r i c₁ m) :=
      .step (.op r o i) hs hg (by simp [Obj.step, hp, hl])
    obtain ⟨rfl, hm⟩ := Prod.mk.inj hp
    obtain ⟨rfl, -⟩ := prepare_some hq
    have hH := (rzEle_hist hs' r).1
    rw [rzCellAt, Obj.issue_st_self] at hH
    exact drains_effect (rzPrepare_get r (s.st r) o) (rzEle_fold hs r) (ready_sent hm) hH
  · rintro s r i o m l buf hs hg hl hi ⟨rfl, rfl⟩
    by_cases hready : rzReady (rzCellAt s r) m = true
    · have hs' : (rzEleObj n).Reach anyOrder ((rzEleObj n).deliver s r i m) :=
        .step (.recv r i) hs hg (by simp [Obj.step, hl, hi])
      have hH := (rzEle_hist hs' r).1
      rw [rzCellAt, Obj.deliver_st_self] at hH
      obtain ⟨l, buf, hd, hrel⟩ := drains_effect rfl (rzEle_fold hs r) hready hH
      rw [← List.append_nil (List.map _ _)] at hd
      exact ⟨l, buf, .next (ready_iff.mpr hready) hd, hrel⟩
    · have heff : (rzEleObj n).effect r (s.st r) m =
          some { rzCellAt s r with
            e := { (rzCellAt s r).e with ops := (rzCellAt s r).e.ops ++ [m] } } := if_neg hready
      rw [heff]
      exact ⟨_, _, .done _ _, rfl, by simp [rzCellAt]⟩

/-- **The code refines the design.** Every run of an element, with every order of delivery, is a run
of the design: a process has the sets and the clock of its replica, `ops` has the messages that were
not received or wait in the buffer, and the prepare phases make the operations of the design and
reject what it turns down. The values and increments are exact numbers, on both sides. -/
theorem rz_refines_rmvwin (hs : (rzEleObj n).Reach anyOrder s) :
    ∃ maxOps d, (algorithm n).Reach maxOps d ∧ AlgRel Related opOf s d ∧
      ∀ r o, (rzPrepare r (s.st r) o).2.toOption.map opOf =
        (reqOf o).bind (prepare r (d.loc r)) := by
  obtain ⟨maxOps, d, hd, hrel⟩ := (implements n).run hs
  refine ⟨maxOps, d, hd, hrel, fun r o => ?_⟩
  obtain ⟨num, buf, -, hproc⟩ := hrel
  rw [(hproc r).loc.1]
  exact prepare_locOf (rzEle_id hs r) o

/-- Replica 1 receives the increment of replica 2 before the add, and keeps it. -/
def demo : List (Ev (Fin 3) ZCmd) :=
  [.op 0 (.zadd 4 (some 10)) 0, .recv 2 0, .op 2 (.zincrby 4 (some 3)) 1, .recv 1 1,
    .op 0 (.zrem 3) 2]

theorem rz_refines_rmvwin_demo :
    let s := (rzEleObj 3).runOf demo
    (rzCellAt s 1).e.ops.length = 1 ∧ ∃ maxOps d, (algorithm 3).Reach maxOps d ∧
      AlgRel Related opOf s d ∧
      ∀ r o, (rzPrepare r (s.st r) o).2.toOption.map opOf =
        (reqOf o).bind (prepare r (d.loc r)) :=
  ⟨by decide +kernel, rz_refines_rmvwin
    (Obj.reach_runOf (g := fun _ _ => true) (fun _ _ _ => trivial) demo (by decide +kernel))⟩

/-! ## Runs of the design -/

/-- The command of a request. -/
def cmdOf : Req → ZCmd
  | .add x => .zadd 4 (some x)
  | .increase i => .zincrby 4 (some i)
  | .remove => .zrem 3

theorem reqOf_cmdOf (q : Req) : reqOf (cmdOf q) = some q := by
  cases q <;> rfl

/-- An operation that is ready, where nothing waits. -/
theorem related_effect {r : Fin n} {c : Option (RzCell n)} {x : RzCell n} {m : RzMsg n}
    (hc : c.getD (rzCellNew r) = x) (hx : RzFold x) (hops : x.e.ops = [])
    (hready : rzReady x m = true) (hH : CausalHist ((rzEffect r c m).getD (rzCellNew r)).hist) :
    Related r (rzEffect r c m) (effect (opOf m) (locOf x)) [] := by
  obtain ⟨l, buf, hd, hrel⟩ := drains_effect hc hx hready hH
  rw [hops] at hd
  obtain ⟨rfl, rfl⟩ := hd.nil
  exact hrel

/-- **Every run of the design is one of the code**, where nothing ever waits in a buffer. -/
theorem rmvwin_covers (n : ℕ) :
    Covers (rzEleObj n) (algorithm n) (fun r c l => Related r c l []) opOf anyOrder := by
  refine ⟨fun r => ⟨(locOf_new r).symm, rfl⟩, ?_, ?_⟩
  · rintro s r l q l₁ x hs ⟨rfl, hops⟩ hp
    obtain ⟨rfl, hreq⟩ := prepare_some hp
    have hcode := prepare_locOf (rzEle_id hs r) (cmdOf q)
    rw [reqOf_cmdOf, Option.bind_some, hreq] at hcode
    obtain ⟨m, hm, rfl⟩ := Option.map_eq_some_iff.mp hcode
    have hprep : (rzEleObj n).prepare r (s.st r) (cmdOf q) =
        ((rzPrepare r (s.st r) (cmdOf q)).1, some m) := Prod.ext rfl hm
    obtain ⟨i, hl⟩ := hs.exists_fresh
    have hs' : (rzEleObj n).Reach anyOrder
        ((rzEleObj n).issue s r i (rzPrepare r (s.st r) (cmdOf q)).1 m) :=
      .step (.op r (cmdOf q) i) hs trivial (by simp [Obj.step, hprep, hl])
    have hH := (rzEle_hist hs' r).1
    rw [rzCellAt, Obj.issue_st_self] at hH
    exact ⟨cmdOf q, _, m, fun _ => trivial, hprep, rfl,
      related_effect (rzPrepare_get r (s.st r) _) (rzEle_fold hs r)
        (List.map_eq_nil_iff.mp hops.symm) (ready_sent hm) hH⟩
  · rintro s r i o m l hs hl hi ⟨rfl, hops⟩ hready
    have hs' : (rzEleObj n).Reach anyOrder ((rzEleObj n).deliver s r i m) :=
      .step (.recv r i) hs trivial (by simp [Obj.step, hl, hi])
    have hH := (rzEle_hist hs' r).1
    rw [rzCellAt, Obj.deliver_st_self] at hH
    exact ⟨trivial, related_effect rfl (rzEle_fold hs r) (List.map_eq_nil_iff.mp hops.symm)
      (ready_iff.mp hready) hH⟩

/-- Where nothing waits, replicas that received the same messages have the same records. -/
theorem locOf_congr (hs : (rzEleObj n).Reach anyOrder s) {p q : Fin n}
    (hp : (rzCellAt s p).e.ops = []) (hq : (rzCellAt s q).e.ops = []) (h : s.recv p = s.recv q) :
    (locOf (rzCellAt s p)).a_set = (locOf (rzCellAt s q)).a_set ∧
      (locOf (rzCellAt s p)).r_set = (locOf (rzCellAt s q)).r_set := by
  have hmem : ∀ {r m}, (rzCellAt s r).e.ops = [] → (m ∈ (rzCellAt s r).applied ↔ received s r m) :=
    fun {r m} hr => by
      refine .trans ?_ (((rzEle_causal hs).loc r).mem m)
      simp [hr, RzCell.app, RzCell.applied]
  have happ : (rzCellAt s p).applied = (rzCellAt s q).applied := by
    ext m
    rw [hmem hp, hmem hq, received, received, h]
  have hcp := rzEle_closed hs p
  have hcq := rzEle_closed hs q
  constructor
  · refine congrArg (rcdOf '' ·) (Set.ext fun a => ?_)
    exact (hcp.aset a).trans (happ ▸ (hcq.aset a).symm)
  · refine congrArg (vecOf '' ·) (Set.ext fun t => ?_)
    exact (hcp.rset t).trans (happ ▸ (hcq.rset t).symm)

theorem rcdConcurrent_locOf (hs : (rzEleObj n).Reach anyOrder s) (r : Fin n) :
    RcdConcurrent (locOf (rzCellAt s r)) := by
  have hpair := (rzEle_rwClosed hs r).apart (rzEle_hist hs r).1 (rzEle_addBetween hs r)
  obtain ⟨haa, hrr, har⟩ := List.pairwise_append.mp hpair
  have hsymm : Std.Symm (Apart (n := n)) := ⟨fun t t' h => ⟨h.not_ge, h.not_le, h.id_ne.symm⟩⟩
  refine ⟨?_, ?_, ?_⟩
  · rintro - ⟨a, ha, rfl⟩ - ⟨b, hb, rfl⟩ hne
    exact vcConcurrent_of_apart (haa.forall (List.mem_map_of_mem ha) (List.mem_map_of_mem hb)
      fun h => hne (congrArg vecOf h))
  · rintro - ⟨a, ha, rfl⟩ - ⟨t, ht, rfl⟩
    exact vcConcurrent_of_apart (har _ (List.mem_map_of_mem ha) t ht)
  · rintro - ⟨t, ht, rfl⟩ - ⟨t', ht', rfl⟩ hne
    exact vcConcurrent_of_apart (hrr.forall ht ht' fun h => hne (congrArg vecOf h))

end Runs

/-- Two processes add the element at the same time and then receive each other's add. -/
theorem two_adds : ∃ d : Design.St (Fin 2) (Loc 2) (Op 2), (algorithm 2).Reach 2 d ∧
    d.ops 0 = d.ops 1 ∧ ⟨![1, 0], 1, 10, 0⟩ ∈ (d.loc 0).a_set ∧
      ⟨![0, 1], 2, 20, 0⟩ ∈ (d.loc 0).a_set := by
  let A := algorithm 2
  let m₀ : Op 2 := .add 1 ![1, 0] 10
  let m₁ : Op 2 := .add 2 ![0, 1] 20
  let l : Loc 2 := ⟨∅, ∅, fun _ => 0⟩
  have hlook : ¬ lookup l.a_set l.r_set := fun h => h.1 rfl
  have hinc : vcInc l.local_vc 0 = ![1, 0] ∧ vcInc l.local_vc 1 = ![0, 1] := by decide
  have hp₀ : A.prepare 0 l (.add 10) = some (l, m₀) := by
    simp [A, algorithm, prepare, hlook, hinc, m₀, proc]
  have hp₁ : A.prepare 1 l (.add 20) = some (l, m₁) := by
    simp [A, algorithm, prepare, hlook, hinc, m₁, proc]
  let d₁ : Design.St (Fin 2) (Loc 2) (Op 2) := ⟨Design.broadcast A.start.ops 0 (1, m₀), 1,
    Function.update A.start.loc 0 (effect m₀ l)⟩
  let d₂ : Design.St (Fin 2) (Loc 2) (Op 2) := ⟨Design.broadcast d₁.ops 1 (2, m₁), 2,
    Function.update d₁.loc 1 (effect m₁ l)⟩
  have h₁ : A.Reach 2 d₁ := .step .start (.issue Nat.two_pos hp₀)
  have h₂ : A.Reach 2 d₂ := .step h₁ (.issue Nat.one_lt_two hp₁)
  have hr₀ : CausallyReady ![1, 0] 1 (vcMax (fun _ => 0) ![0, 1]) := by
    unfold CausallyReady
    decide
  have hr₁ : CausallyReady ![0, 1] 2 (vcMax (fun _ => 0) ![1, 0]) := by
    unfold CausallyReady
    decide
  let d₃ : Design.St (Fin 2) (Loc 2) (Op 2) := { d₂ with
    ops := Function.update d₂.ops 1 (d₂.ops 1 \ {(1, m₀)})
    loc := Function.update d₂.loc 1 (effect m₀ (effect m₁ l)) }
  have h₃ : A.Reach 2 d₃ := h₂.step (.receive (.inr rfl) hr₀)
  have hx : (2, m₁) ∈ d₃.ops 0 := .inr rfl
  refine ⟨_, h₃.step (.receive hx hr₁), ?_, ?_, .inr rfl⟩
  · simp [d₁, d₂, d₃, Design.broadcast, A, Algorithm.start]
  · have hless : ¬ VcLess ![1, 0] ![0, 1] := fun h => absurd (h 0) (by decide)
    exact .inl ⟨.inr rfl, fun h => hless h.2⟩

section Design

variable {maxOps : ℕ} {d : Design.St (Fin n) (Loc n) (Op n)}

/-- **Strong eventual consistency of the design**, for every number of processes and bound: in every
reachable state, processes that have the same operations to apply have the same sets. -/
theorem rmvwin_sec (hd : (algorithm n).Reach maxOps d) : SEC d := by
  obtain ⟨s, hs, hrel⟩ := (rmvwin_covers n).run hd
  rintro p q ⟨-, hops⟩
  have hnil : ∀ r, (rzCellAt s r).e.ops = [] := fun r =>
    List.map_eq_nil_iff.mp (hrel.loc r).2.symm
  rw [(hrel.loc p).1, (hrel.loc q).1]
  exact locOf_congr hs (hnil p) (hnil q) (hrel.recv_eq hs.wf hops)

theorem rmvwin_sec_two_adds : ∃ d : Design.St (Fin 2) (Loc 2) (Op 2), (algorithm 2).Reach 2 d ∧
    d.ops 0 = d.ops 1 ∧ ⟨![1, 0], 1, 10, 0⟩ ∈ (d.loc 0).a_set ∧ SEC d := by
  obtain ⟨d, hd, hops, h₀, -⟩ := two_adds
  exact ⟨d, hd, hops, h₀, rmvwin_sec hd⟩

/-- **The records of the design are concurrent**: at every process, the timestamps of `a_set` and
`r_set` are pairwise concurrent. -/
theorem rmvwin_rcd_concurrent (hd : (algorithm n).Reach maxOps d) (p : Fin n) :
    RcdConcurrent (d.loc p) := by
  obtain ⟨s, hs, hrel⟩ := (rmvwin_covers n).run hd
  rw [(hrel.loc p).1]
  exact rcdConcurrent_locOf hs p

theorem rmvwin_rcd_concurrent_two_adds : ∃ d : Design.St (Fin 2) (Loc 2) (Op 2),
    (algorithm 2).Reach 2 d ∧ ⟨![1, 0], 1, 10, 0⟩ ∈ (d.loc 0).a_set ∧
      ⟨![0, 1], 2, 20, 0⟩ ∈ (d.loc 0).a_set ∧ RcdConcurrent (d.loc 0) := by
  obtain ⟨d, hd, -, h₀, h₁⟩ := two_adds
  exact ⟨d, hd, h₀, h₁, rmvwin_rcd_concurrent hd 0⟩

end Design

end RmvwinRpq

end CrdtRedis
