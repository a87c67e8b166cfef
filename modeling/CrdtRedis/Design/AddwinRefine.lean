import CrdtRedis.Design.AddwinRpq
import CrdtRedis.OZset.Pointers

/-!
# The Add-Win priority queue refines its design

A remove of the code deletes the entry of a removed tag, and what comes later for that tag does
nothing; the design keeps the record and changes it. An increment that comes before the add of its
tag leaves the value of the new entry as it finds it in memory, where the design has 0.

* `Related`: how the metadata of an element reads as the variables of a process.
* `TagRel.step`: an operation does the same on both sides to a tag that was not removed.
* `oz_refines_addwin`: every run of the code, with every order of delivery, is one of the design,
  which makes the messages of the code and turns down what it rejects.
-/

namespace CrdtRedis

open Broadcast

namespace AddwinRpq

open RwfRpq (proc)

variable {n : ℕ}

/-! ## The relation -/

/-- The tag of the design: processes are numbered from 1. -/
def tagOf (t : Lc) : Tag := (t.id + 1, t.x)

/-- The operation of a message. -/
def opOf (e : Sds) : OzMsg → Op
  | .add v t => .add e v (tagOf t)
  | .inc v ts => .increase e v (tagOf '' {t | t ∈ ts})
  | .rem ts => .remove e (tagOf '' {t | t ∈ ts})

/-- The request of a command whose arguments are accepted. -/
def reqOf (e : Sds) : ZCmd → Option Req
  | .zadd argc v => (checkArgc 4 argc).toOption.bind fun _ => v.map (.add e)
  | .zincrby argc v => (checkArgc 4 argc).toOption.bind fun _ => v.map (.increase e)
  | .zrem argc => (checkArgc 3 argc).toOption.map fun _ => .remove e

/-- The metadata of element `e` at a replica, read as the variables of its process. The replica has
applied the adds of the tags `added`. -/
structure Related (e : Sds) (junk : Lc → ℚ) (added : Lc → Prop) (c : OzCell) (l : Loc) : Prop where
  num : l.num = c.get.current
  removed : l.r_set = Rmv.mk e '' (tagOf '' {t | t ∈ c.get.rset})
  key : ∀ x ∈ l.a_set, x.key = e
  /-- A tag that was not removed has an entry if it has a record. -/
  live : ∀ t ∉ c.get.rset, (∃ x ∈ l.a_set, x.t = tagOf t) ↔ t ∈ c.get.aset.map OzAse.t
  /-- The values agree, but for that of an entry whose add did not come yet. -/
  vals : ∀ a ∈ c.get.aset, ∀ x ∈ l.a_set, x.t = tagOf a.t → x.v_acq = a.inc ∧ x.change = a.count ∧
    (added a.t → x.v_inn = a.x) ∧ (¬ added a.t → x.v_inn = 0 ∧ a.x = junk a.t)
  /-- No two records have one tag. -/
  inj : ∀ x ∈ l.a_set, ∀ y ∈ l.a_set, x.t = y.t → x = y

theorem tagOf_injective : Function.Injective tagOf := fun t t' h => by
  obtain ⟨h₁, h₂⟩ := Prod.mk.inj h
  cases t
  cases t'
  simp_all

theorem tagOf_mem {t : Lc} {ts : List Lc} : tagOf t ∈ tagOf '' {t | t ∈ ts} ↔ t ∈ ts :=
  tagOf_injective.mem_set_image

/-- What the values of an entry and of a record have to do with each other; `added`: the add was
applied. -/
def ValRel (junk : Lc → ℚ) (t : Lc) (added : Prop) (a : OzAse) (w : Vals) : Prop :=
  w.2 = (a.inc, a.count) ∧ (added → w.1 = a.x) ∧ (¬ added → w.1 = 0 ∧ a.x = junk t)

/-- What the code and the design know of a tag: nothing is required of a removed one. -/
def TagRel (junk : Lc → ℚ) (t : Lc) (added : Prop) (p : Bool × Option OzAse) (v : Option Vals) :
    Prop :=
  p.1 = false → (p.2 = none ↔ v = none) ∧ (p.2 = none → ¬ added) ∧
    ∀ a ∈ p.2, ∀ w ∈ v, ValRel junk t added a w

/-- The records before an update: those of a new tag have the values of a new entry. -/
theorem TagRel.getD {junk : Lc → ℚ} {t : Lc} {added : Prop} {o : Option OzAse} {v : Option Vals}
    (h : TagRel junk t added (false, o) v) :
    ValRel junk t added (o.getD (addAse junk t)) (v.getD 0) := by
  obtain ⟨hnone, hnew, hvals⟩ := h rfl
  cases o with
  | none =>
    rw [hnone.mp rfl]
    exact ⟨rfl, fun hadd => absurd hadd (hnew rfl), fun _ => ⟨rfl, rfl⟩⟩
  | some a =>
    cases v with
    | none => cases hnone.mpr rfl
    | some w => exact hvals a rfl w rfl

theorem abs_eq_ite (v : ℚ) : |v| = if 0 < v then v else -v := by
  split
  · rename_i h
    exact abs_of_pos h
  · rename_i h
    exact abs_of_nonpos (not_lt.mp h)

/-- The entry and the record of a tag change in the same way. -/
theorem TagRel.upsert {junk : Lc → ℚ} {t : Lc} {added added' : Prop} {p : Bool × Option OzAse}
    {v : Option Vals} {f : OzAse → OzAse} {g : Vals → Vals} (h : TagRel junk t added p v)
    (hfg : ∀ a w, ValRel junk t added a w → ValRel junk t added' (f a) (g w)) :
    TagRel junk t added' (tagUpsert junk t f p) (some (g (v.getD 0))) := by
  obtain ⟨removed, entry⟩ := p
  cases removed with
  | true =>
    intro hp
    cases hp
  | false =>
    refine fun _ => ⟨by simp [tagUpsert], by simp [tagUpsert], ?_⟩
    rintro a ⟨⟩ w ⟨⟩
    exact hfg _ _ h.getD

/-- An operation acts on a tag in the same way, until the tag is removed. -/
theorem TagRel.step {junk : Lc → ℚ} {t : Lc} {added : Prop} {p : Bool × Option OzAse} {ρ : Tab}
    {e : Sds} (h : TagRel junk t added p (ρ e (tagOf t))) (R : Set Rmv) (m : OzMsg) :
    TagRel junk t (added ∨ m.adds t = true) (tagStep junk t p m)
      ((step (ρ, R) (opOf e m)).1 e (tagOf t)) := by
  have hkeep : ∀ {T f}, tagOf t ∉ T → bump e T f ρ e (tagOf t) = ρ e (tagOf t) := fun hT =>
    bump_neg fun h => hT h.2
  cases m with
  | add v t' =>
    change TagRel junk t _ (if t = t' then _ else p) (bump e {tagOf t'} _ ρ e (tagOf t))
    split
    · rename_i ht
      subst ht
      rw [bump_pos ⟨rfl, Set.mem_singleton _⟩]
      refine h.upsert fun a w hw => ⟨hw.1, fun _ => rfl, fun hno => ?_⟩
      exact absurd (.inr (by simp [OzMsg.adds])) hno
    · rename_i ht
      rw [hkeep fun h => ht (tagOf_injective h)]
      simpa [OzMsg.adds, Ne.symm ht] using h
  | inc v ts =>
    simp only [OzMsg.adds, Bool.false_eq_true, or_false]
    change TagRel junk t _ (if t ∈ ts then _ else p)
      (bump e (tagOf '' {t | t ∈ ts}) _ ρ e (tagOf t))
    split
    · rename_i ht
      rw [bump_pos ⟨rfl, tagOf_mem.mpr ht⟩]
      refine h.upsert fun a w hw => ⟨?_, hw.2⟩
      change (w.2.1 + v, w.2.2 + |v|) = _
      rw [hw.1, abs_eq_ite]
      rfl
    · rename_i ht
      rwa [hkeep fun h => ht (tagOf_mem.mp h)]
  | rem ts =>
    simp only [OzMsg.adds, Bool.false_eq_true, or_false]
    change TagRel junk t _ (if t ∈ ts then _ else p) (bump e ∅ _ ρ e (tagOf t))
    rw [hkeep (Set.notMem_empty _)]
    split
    · intro hp
      cases hp
    · exact h

/-- `Related` with the records as a table. -/
structure Canon (e : Sds) (junk : Lc → ℚ) (added : Lc → Prop) (x : Oze) (l : Loc) (ρ : Tab) :
    Prop where
  num : l.num = x.current
  removed : l.r_set = Rmv.mk e '' (tagOf '' {t | t ∈ x.rset})
  table : l.a_set = recs ρ
  other : ∀ k t, ρ k t ≠ none → k = e
  tag : ∀ t, TagRel junk t (added t) (ozTag x.toOzTags t) (ρ e (tagOf t))

section Canon

variable {e : Sds} {junk : Lc → ℚ} {added : Lc → Prop} {x : Oze} {l : Loc} {ρ : Tab}

/-- A tag that was not removed has an entry if it has a record. -/
theorem Canon.live (h : Canon e junk added x l ρ) {t : Lc} (ht : t ∉ x.rset) :
    ρ e (tagOf t) ≠ none ↔ t ∈ x.aset.map OzAse.t := by
  rw [← not_iff_not, ← find?_tagIs_none, not_not]
  exact (h.tag t (decide_eq_false ht)).1.symm

theorem exists_rcd_iff {t : Tag} : (∃ r ∈ recs ρ, r.key = e ∧ r.t = t) ↔ ρ e t ≠ none := by
  constructor
  · rintro ⟨r, hr, rfl, rfl⟩
    rw [(hr : ρ r.key r.t = _)]
    simp
  · intro hne
    obtain ⟨v, hv⟩ := Option.ne_none_iff_exists'.mp hne
    exact ⟨rcd e t v, hv, rfl, rfl⟩

/-- The tags that the design observes are those of the entries. -/
theorem Canon.observeT (h : Canon e junk added x l ρ) (hw : OzWf x.toOzTags) :
    observeT l.a_set l.r_set e = tagOf '' {t | t ∈ x.aset.map OzAse.t} := by
  ext u
  obtain ⟨t, rfl⟩ : ∃ t, tagOf t = u := ⟨⟨u.2, u.1 - 1⟩, by simp [tagOf]⟩
  have hrec : tagOf t ∈ tSet Rcd.key Rcd.t l.a_set e ↔ ρ e (tagOf t) ≠ none := by
    rw [← exists_rcd_iff, h.table]
    exact exists_congr fun r => and_assoc
  have hrem : tagOf t ∈ tSet Rmv.key Rmv.t l.r_set e ↔ t ∈ x.rset := by
    rw [h.removed, ← tagOf_mem]
    constructor
    · rintro ⟨r, ⟨⟨u, hu, rfl⟩, -⟩, ht⟩
      exact ht ▸ hu
    · exact fun ht => ⟨_, ⟨⟨_, ht, rfl⟩, rfl⟩, rfl⟩
  rw [AddwinRpq.observeT, Set.mem_sdiff, hrec, hrem, tagOf_mem]
  constructor
  · rintro ⟨hne, ht⟩
    exact (h.live ht).mp hne
  · exact fun ht => ⟨(h.live (hw.live t ht)).mpr ht, hw.live t ht⟩

theorem Canon.lookup (h : Canon e junk added x l ρ) (hw : OzWf x.toOzTags) :
    lookup l.a_set l.r_set e ↔ x.lookup = true := by
  rw [AddwinRpq.lookup, h.observeT hw, ← Set.nonempty_iff_ne_empty, Set.image_nonempty]
  cases ha : x.aset with
  | nil => simp [OzTags.lookup, ha]
  | cons a as => simpa [OzTags.lookup, ha] using ⟨a.t, .inl rfl⟩

/-- What the prepare phases send for a request to an element. -/
def sends (r : Fin n) (x : Oze) : Req → Option OzMsg
  | .add _ v => if x.lookup then none else some (.add v ⟨x.current, (r : ℕ)⟩)
  | .increase _ v => if x.lookup then some (.inc v (x.aset.map OzAse.t)) else none
  | .remove _ => if x.lookup then some (.rem (x.aset.map OzAse.t)) else none

theorem ozPrepare_sends (e : Sds) (r : Fin n) (c : OzCell) (o : ZCmd) :
    (ozPrepare r c o).2.toOption = (reqOf e o).bind (sends r c.get) := by
  have hget : ∀ y, c.ele = some y → c.get = y := fun y hy => by simp [OzCell.get, hy]
  have hnone : c.ele = none → c.get.lookup = false := fun hy => by
    simp [OzCell.get, hy, OzTags.lookup, ozeNew, ozTagsNew]
  cases o with
  | zadd argc v =>
    simp only [ozPrepare, reqOf]
    cases checkArgc 4 argc with
    | error err => rfl
    | ok _ =>
      cases v with
      | none => rfl
      | some v =>
        simp only [checkArg, sends, Except.toOption, Option.bind_some, Option.map_some]
        cases c.get.lookup <;> rfl
  | zincrby argc v =>
    simp only [ozPrepare, reqOf]
    cases checkArgc 4 argc with
    | error err => rfl
    | ok _ =>
      cases v with
      | none => rfl
      | some v =>
        cases hy : c.ele with
        | none => simp [sends, hnone hy, checkArg, Except.toOption]
        | some y =>
          rw [hget y hy]
          change Except.toOption (if _ then _ else _) = if _ then _ else _
          cases y.lookup <;> rfl
  | zrem argc =>
    simp only [ozPrepare, reqOf]
    cases checkArgc 3 argc with
    | error err => rfl
    | ok _ =>
      cases hy : c.ele with
      | none => simp [sends, hnone hy, Except.toOption]
      | some y =>
        rw [hget y hy]
        change Except.toOption (if _ then _ else _) = if _ then _ else _
        cases y.lookup <;> rfl

theorem reqOf_cases {o : ZCmd} {q : Req} (h : reqOf e o = some q) :
    (∃ v, q = .add e v) ∨ (∃ v, q = .increase e v) ∨ q = .remove e := by
  cases o with
  | zadd argc v =>
    obtain ⟨-, -, hv⟩ := Option.bind_eq_some_iff.mp h
    obtain ⟨v, -, rfl⟩ := Option.map_eq_some_iff.mp hv
    exact .inl ⟨v, rfl⟩
  | zincrby argc v =>
    obtain ⟨-, -, hv⟩ := Option.bind_eq_some_iff.mp h
    obtain ⟨v, -, rfl⟩ := Option.map_eq_some_iff.mp hv
    exact .inr (.inl ⟨v, rfl⟩)
  | zrem argc =>
    obtain ⟨-, -, rfl⟩ := Option.map_eq_some_iff.mp h
    exact .inr (.inr rfl)

/-- The design makes the operation of the message, or turns down what the code rejects. -/
theorem Canon.prepare {r : Fin n} {c : OzCell} (h : Canon e junk added c.get l ρ)
    (hw : OzWf c.get.toOzTags) (o : ZCmd) :
    (ozPrepare r c o).2.toOption.map (opOf e) =
      ((reqOf e o).bind (prepare r l)).map Prod.snd := by
  have hlook := h.lookup hw
  have hobs := h.observeT hw
  rw [ozPrepare_sends e]
  cases hq : reqOf e o with
  | none => rfl
  | some q =>
    change (sends r c.get q).map (opOf e) = (AddwinRpq.prepare r l q).map Prod.snd
    rcases reqOf_cases hq with ⟨v, rfl⟩ | ⟨v, rfl⟩ | rfl <;> cases hl : c.get.lookup <;>
      simp [sends, AddwinRpq.prepare, hlook, hl, opOf, hobs, tagOf, proc, h.num]

theorem opOf_removed (e : Sds) (m : OzMsg) :
    (opOf e m).removed = Rmv.mk e '' (tagOf '' {t | m.removes t = true}) := by
  cases m <;> simp [opOf, Op.removed, OzMsg.removes]

theorem ozTag_removed (y : OzTags) (t : Lc) : (ozTag y t).1 = true ↔ t ∈ y.rset :=
  decide_eq_true_iff

theorem tagStep_removed (p : Bool × Option OzAse) (t : Lc) (m : OzMsg) :
    (tagStep junk t p m).1 = true ↔ p.1 = true ∨ m.removes t = true := by
  have hup : ∀ f, (tagUpsert junk t f p).1 = p.1 := fun f => by
    rw [tagUpsert]
    split
    · rfl
    · rename_i hp
      simpa using hp
  cases m with
  | add v t' =>
    simp only [tagStep, OzMsg.removes]
    split <;> simp [hup]
  | inc v ts =>
    simp only [tagStep, OzMsg.removes]
    split <;> simp [hup]
  | rem ts =>
    simp only [tagStep, OzMsg.removes]
    split <;> simp_all

theorem Canon.effect (h : Canon e junk added x l ρ) (hw : OzWf x.toOzTags) (z : Option ℚ)
    {m : OzMsg} (hm : m.NodupTags) :
    Canon e junk (fun t => added t ∨ m.adds t = true)
      { x with toOzTags := (ozApply junk x.toOzTags z m).1 } (effect (opOf e m) l)
      (step (ρ, l.r_set) (opOf e m)).1 := by
  have hshow : Shows l (ρ, l.r_set) := ⟨h.table, rfl⟩
  obtain ⟨ha, hr⟩ := hshow.effect (opOf e m)
  refine ⟨?_, ?_, ha, ?_, ?_⟩
  · rw [effect_num]
    exact h.num
  · have hset : {t | t ∈ (ozApply junk x.toOzTags z m).1.rset} =
        {t | t ∈ x.rset} ∪ {t | m.removes t = true} := by
      ext t
      change t ∈ (ozApply junk x.toOzTags z m).1.rset ↔ t ∈ x.rset ∨ _
      rw [← ozTag_removed, ← ozTag_removed, ozTag_apply hw z hm]
      exact tagStep_removed _ t m
    change _ = Rmv.mk e '' (tagOf '' {t | t ∈ (ozApply junk x.toOzTags z m).1.rset})
    rw [hr, hset, Set.image_union, Set.image_union, ← h.removed, ← opOf_removed]
    rfl
  · intro k t hk
    by_cases hb : k = (opOf e m).key ∧ t ∈ (opOf e m).tags
    · refine hb.1.trans ?_
      cases m <;> rfl
    · exact h.other k t ((bump_neg hb).symm.trans_ne hk)
  · intro t
    rw [ozTag_apply hw z hm]
    exact (h.tag t).step _ m

theorem Canon.related {c : OzCell} (h : Canon e junk added c.get l ρ) (hw : OzWf c.get.toOzTags) :
    Related e junk added c l := by
  have hkey : ∀ r ∈ recs ρ, r.key = e := fun r hr =>
    h.other r.key r.t (by rw [(hr : ρ r.key r.t = _)]; simp)
  have hval : ∀ r ∈ recs ρ, ρ e r.t = some (r.v_inn, r.v_acq, r.change) := fun r hr => by
    rw [← hkey r hr]
    exact hr
  refine ⟨h.num, h.removed, by rwa [h.table], fun t ht => ?_, fun a ha r hr hrt => ?_, ?_⟩
  · rw [← h.live ht, ← exists_rcd_iff, h.table]
    exact exists_congr fun r => and_congr_right fun hr => (and_iff_right (hkey r hr)).symm
  · rw [h.table] at hr
    have hget : c.get.asetGet a.t = some a := find?_of_mem hw.nodup ha
    have hlive := hw.live a.t (List.mem_map_of_mem ha)
    obtain ⟨hv, hx⟩ := (h.tag a.t (decide_eq_false hlive)).2.2 a hget _ (hrt ▸ hval r hr)
    obtain ⟨h₁, h₂⟩ := Prod.mk.inj hv
    exact ⟨h₁, h₂, hx⟩
  · rw [h.table]
    intro r hr r' hr' ht
    rw [eq_rcd_of_mem hr, eq_rcd_of_mem hr', hkey r hr, hkey r' hr', ht]

end Canon

/-- The messages of a run name each tag once. -/
theorem ozPrepare_nodupTags {r : Fin n} {c : OzCell} (hw : OzWf c.get.toOzTags) {o : ZCmd}
    {m : OzMsg} (h : (ozPrepare r c o).2.toOption = some m) : m.NodupTags := by
  rcases ozPrepare_some h with ⟨v, rfl, -⟩ | ⟨-, ⟨v, rfl⟩ | rfl⟩
  · trivial
  · exact hw.nodup
  · exact hw.nodup

/-- A command that is rejected changes nothing. -/
theorem ozPrepare_get_of_none {r : Fin n} {c : OzCell} {o : ZCmd}
    (h : (ozPrepare r c o).2.toOption = none) : (ozPrepare r c o).1.get = c.get := by
  cases o with
  | zadd argc v =>
    simp only [ozPrepare] at h ⊢
    split at h
    · rfl
    · rfl
    · split at h
      · rename_i hl
        rw [if_pos hl]
        rfl
      · cases h
  | zincrby argc v =>
    simp only [ozPrepare]
    split <;> rfl
  | zrem argc =>
    simp only [ozPrepare]
    split <;> rfl

/-- The tag that an add takes is the one of the design, and `num` goes with `current`. -/
theorem Canon.prepared {e : Sds} {junk : Lc → ℚ} {added : Lc → Prop} {l l₁ : Loc} {ρ : Tab}
    {r : Fin n} {c : OzCell} {o : ZCmd} {q : Req} {m : OzMsg} (h : Canon e junk added c.get l ρ)
    (hm : (ozPrepare r c o).2.toOption = some m)
    (hq : AddwinRpq.prepare r l q = some (l₁, opOf e m)) :
    Canon e junk added (ozPrepare r c o).1.get l₁ ρ := by
  rcases ozPrepare_some hm with ⟨v, rfl, hcur⟩ | ⟨hc, hm'⟩
  · obtain ⟨e', x', -, rfl⟩ | ⟨-, hne⟩ := prepare_cases hq
    · have ht := ozPrepare_tags r c o
      refine ⟨?_, ?_, h.table, h.other, ?_⟩
      · rw [hcur, ← h.num]
      · rw [ht]
        exact h.removed
      · rw [ht]
        exact h.tag
    · exact absurd rfl (hne _ _ _)
  · rw [hc]
    obtain ⟨e', x', hadd, -⟩ | ⟨rfl, -⟩ := prepare_cases hq
    · rcases hm' with ⟨v, rfl⟩ | rfl <;> cases hadd
    · exact h

/-- A replica with the messages that it applied, and a process. -/
def HistRel (e : Sds) (junk : Fin n → Lc → ℚ) (r : Fin n) (x : OzCell × List OzMsg) (l : Loc) :
    Prop := ∃ ρ, Canon e (junk r) (fun t => ∃ m ∈ x.2, m.adds t = true) x.1.get l ρ

theorem implements (e : Sds) (junk : Fin n → Lc → ℚ) :
    Implements (ozEleObj n junk).track (algorithm n)
      (fun r x l buf => buf = [] ∧ HistRel e junk r x l) (opOf e) (reqOf e) anyOrder := by
  have hcons : ∀ (m : OzMsg) ms, (fun t => ∃ m' ∈ m :: ms, m'.adds t = true) =
      fun t => (∃ m' ∈ ms, m'.adds t = true) ∨ m.adds t = true := fun m ms => by
    funext t
    simp [or_comm]
  refine ⟨fun r => ⟨rfl, fun _ _ => none, rfl, ?_, ?_, by simp, fun t _ => ?_⟩, ?_, ?_, ?_⟩
  · change ∅ = Rmv.mk e '' (tagOf '' {t | t ∈ []})
    simp
  · change ∅ = recs _
    simp [recs]
  · refine ⟨⟨fun _ => rfl, fun _ => rfl⟩, fun _ => by simp [Obj.track], fun a ha => ?_⟩
    cases ha
  · rintro s r o i x₁ res l buf hs - ⟨rfl, ρ, h⟩ hp
    obtain ⟨hp, hms⟩ := Obj.track_prepare.mp hp
    obtain ⟨hx, rfl⟩ := Prod.mk.inj hp
    refine ⟨h.prepare (ozEle_wf hs.untrack r) o, fun hres => ⟨rfl, ρ, ?_⟩⟩
    rwa [hms, ← hx, ozPrepare_get_of_none hres]
  · rintro s r o i x₁ m l buf q l₁ hs - - ⟨rfl, ρ, h⟩ hp - hq
    obtain ⟨hp, hms⟩ := Obj.track_prepare.mp hp
    obtain ⟨hx, hm⟩ := Prod.mk.inj hp
    have hw := ozEle_wf hs.untrack r
    have hw₁ : OzWf (ozPrepare r (s.st r).1 o).1.get.toOzTags := by rwa [ozPrepare_tags]
    have heff := (h.prepared hm hq).effect hw₁ (ozPrepare r (s.st r).1 o).1.zset
      (ozPrepare_nodupTags hw hm)
    rw [← hcons, ← hms, hx] at heff
    exact ⟨_, [], .done _ _, rfl, _, heff⟩
  · rintro s r i o m l buf hs - hl - ⟨rfl, ρ, h⟩
    have heff := h.effect (ozEle_wf hs.untrack r) (s.st r).1.zset
      ((ozEle_log hs.untrack).nodup i o m hl)
    rw [← hcons] at heff
    have hnext : (algorithm n).Drains l ([] ++ opOf e m :: []) (AddwinRpq.effect (opOf e m) l) [] :=
      .next trivial (.done _ _)
    exact ⟨_, [], hnext, rfl, _, heff⟩

/-- **The code refines the design.** Every run of an element, with every order of delivery, is a run
of the design: the replicas and processes are in related states, `ops` has the messages that were
not received, and the prepare phases make the operations of the design and reject what it turns
down. The values and increments are exact numbers, on both sides. -/
theorem oz_refines_addwin (e : Sds) {junk : Fin n → Lc → ℚ} {s : OzSys n}
    (hs : (ozEleObj n junk).Reach anyOrder s) :
    ∃ maxOps d, (algorithm n).Reach maxOps d ∧
      SysRel (fun r => Related e (junk r) (OzAdded s r)) (opOf e) s d ∧
      ∀ r o, (ozPrepare r (s.st r) o).2.toOption.map (opOf e) =
        ((reqOf e o).bind (prepare r (d.loc r))).map Prod.snd := by
  obtain ⟨h, hh⟩ := hs.track
  obtain ⟨maxOps, d, hd, hrel⟩ := (implements e junk).run hh
  obtain ⟨hloc, hops⟩ := hrel.sysRel hh.wf
  obtain ⟨num, hnum, hops⟩ := hops
  have hadded : ∀ r, (fun t => ∃ m ∈ h r, m.adds t = true) = OzAdded s r := fun r => by
    funext t
    refine propext ⟨?_, ?_⟩
    · rintro ⟨m, hm, hadds⟩
      obtain ⟨i, hi, hlog⟩ := (hh.mem_track r m).mp hm
      exact .of_adds ⟨i, hi, by rw [show s.msg i = some m from hlog]; exact hadds⟩
    · rintro ⟨v, i, hi, o, hl⟩
      have hlog : (s.withHist h).msg i = some (.add v t) := by simp [Sys.msg, Sys.withHist, hl]
      exact ⟨_, (hh.mem_track r _).mpr ⟨i, hi, hlog⟩, by simp [OzMsg.adds]⟩
  refine ⟨maxOps, d, hd, ⟨fun r => ?_, num, ⟨hnum.inj, hnum.le⟩, hops⟩, fun r o => ?_⟩
  · obtain ⟨ρ, h⟩ := hloc r
    exact hadded r ▸ h.related (ozEle_wf hs r)
  · obtain ⟨ρ, h⟩ := hloc r
    exact h.prepare (ozEle_wf hs r) o

/-- Replica 1 receives the increment of replica 2, and makes one of its own, before the add. -/
def demo : List (Ev (Fin 3) ZCmd) :=
  [.op 0 (.zadd 4 (some 10)) 0, .recv 2 0, .op 2 (.zincrby 4 (some 3)) 1, .recv 1 1,
    .op 1 (.zincrby 4 (some 2)) 2, .recv 0 2, .op 0 (.zrem 3) 3]

theorem oz_refines_addwin_demo :
    let s := (ozEleObj 3 fun _ _ => 7).runOf demo
    (s.st 1).get.aset.map OzAse.x = [7] ∧ ∃ maxOps d, (algorithm 3).Reach maxOps d ∧
      SysRel (fun r => Related "e".toList (fun _ => 7) (OzAdded s r)) (opOf "e".toList) s d ∧
      ∀ r o, (ozPrepare r (s.st r) o).2.toOption.map (opOf "e".toList) =
        ((reqOf "e".toList o).bind (prepare r (d.loc r))).map Prod.snd :=
  ⟨by decide +kernel, oz_refines_addwin "e".toList
    (Obj.reach_runOf (g := fun _ _ => true) (fun _ _ _ => trivial) demo (by decide +kernel))⟩

end AddwinRpq

end CrdtRedis
