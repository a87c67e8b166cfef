import CrdtRedis.OZset.Convergence

/-!
# The visible score of the Add-Win queue

The sorted set shows an element while it has live tags, with the score computed from `innate` and
`acquired` (`ScoreOk`). The effect phases refresh it only when a pointer or the entry it points to
changed, as they see it.

* `ScoreOk.apply`: every message keeps this, except an add that finds its tag's entry elected as
  `innate` already, with another `x`: `update_innate_value` sets `x` and reports no change.
* `oz_score`: so it holds in every run in which no add is received like this (`ozScoreGuard`).
* `oz_score_stale`: a run in which one is. After a remove, `resort` elects an entry that an
  increment created and whose add is still under way; when the add arrives, the sorted set keeps the
  score that was computed from uninitialised memory.
-/

namespace CrdtRedis

open Broadcast

variable {n : ℕ}

/-- The sorted set shows the element iff it is live, with its score. -/
def ScoreOk (e : OzTags) (z : Option ℚ) : Prop := z = if e.lookup then some e.score else none

section Apply

variable {junk : Lc → ℚ} {e e' : OzTags} {t : Lc} {v : ℚ} {z : Option ℚ}

theorem OzTags.lookup_of_mem {t : Lc} (h : t ∈ e.aset.map OzAse.t) : e.lookup = true := by
  cases ha : e.aset with
  | nil => rw [ha] at h; cases h
  | cons a l => simp [OzTags.lookup, ha]

/-- The part of the score that a pointer gives, after an entry changed in a way that does not
matter to it. -/
theorem deref_upsert {W : Type} {f : OzAse → OzAse}
    (ha : e'.aset = upsert t (addAse junk t) f e.aset) (hf : ∀ a, (f a).t = a.t) (p : Option Lc)
    (w : OzAse → W)
    (hp : ∀ t' ∈ p, t' ∈ e.aset.map OzAse.t)
    (hw : p = some t → ∀ a, e.asetGet t = some a → w (f a) = w a) :
    (e'.deref p).map w = (e.deref p).map w := by
  cases p with
  | none => rfl
  | some t' =>
    simp only [OzTags.deref, Option.bind_some, OzTags.asetGet, ha]
    by_cases ht : t' = t
    · subst ht
      have hsome : e.asetGet t' ≠ none := fun hn => find?_tagIs_none.mp hn (hp t' rfl)
      obtain ⟨a, hga⟩ := Option.ne_none_iff_exists'.mp hsome
      have hga' : e.aset.find? (tagIs t') = some a := hga
      rw [find?_upsert_self hf (addAse_t junk t'), hga']
      simpa using hw rfl a hga
    · rw [find?_upsert_ne hf (addAse_t junk t) ht]

/-- An update that changes neither the pointers nor what they show. -/
theorem score_upsert {f : OzAse → OzAse} (h : OzWf e)
    (ha : e'.aset = upsert t (addAse junk t) f e.aset) (hf : ∀ a, (f a).t = a.t)
    (hi : e'.innate = e.innate) (hq : e'.acquired = e.acquired)
    (hx : e.innate = some t → ∀ a, e.asetGet t = some a → (f a).x = a.x)
    (hinc : e.acquired = some t → ∀ a, e.asetGet t = some a → (f a).inc = a.inc) :
    e'.score = e.score := by
  rw [OzTags.score, OzTags.score, hi, hq, deref_upsert ha hf e.innate OzAse.x h.innate hx,
    deref_upsert ha hf e.acquired OzAse.inc h.acquired hinc]

theorem lookup_upsert {f : OzAse → OzAse} (ha : e'.aset = upsert t (addAse junk t) f e.aset)
    (hf : ∀ a, (f a).t = a.t) : e'.lookup = true :=
  OzTags.lookup_of_mem (t := t) (by rw [ha]; exact (mem_upsert hf t).mpr (.inl rfl))

/-- What `update_innate_value` leaves unchanged when it reports no change: all that is shown, if
`innate` was not the entry that it wrote to. -/
theorem updateInnateValue_score (junk : Lc → ℚ) (h : OzWf e)
    (hx : e.innate = some t → ∀ a, e.asetGet t = some a → a.x = v) :
    let p := e.updateInnateValue junk t v
    (p.2 = true → p.1.lookup = true) ∧
      (p.2 = false → p.1.score = e.score ∧ p.1.lookup = e.lookup) := by
  by_cases hr : t ∈ e.rset
  · simp [updateInnateValue_of_mem hr]
  · have ha := (updateInnateValue_aset junk v hr).1
    refine ⟨fun _ => lookup_upsert ha (fun _ => rfl), fun hp => ?_⟩
    have hlook := lookup_upsert ha fun _ => rfl
    simp only [OzTags.updateInnateValue, rsetGet_isSome, hr, decide_false, Bool.false_eq_true,
      if_false] at hp ha hlook ⊢
    split at hp
    · cases hp
    · rename_i hall
      rw [if_neg hall] at ha hlook ⊢
      refine ⟨score_upsert h ha (fun _ => rfl) rfl rfl (fun hi a hg => (hx hi a hg).symm)
        fun _ _ _ => rfl, hlook.trans ?_⟩
      -- No change is reported only if there is an `innate`.
      cases hi : e.innate with
      | none => simp [hi] at hall
      | some i => exact (OzTags.lookup_of_mem (h.innate i hi)).symm

theorem updateAcquiredValue_score (junk : Lc → ℚ) (h : OzWf e) (t : Lc) (v : ℚ) :
    let p := e.updateAcquiredValue junk t v
    (p.2 = true → p.1.lookup = true) ∧
      (p.2 = false → p.1.score = e.score ∧ p.1.lookup = e.lookup) := by
  by_cases hr : t ∈ e.rset
  · simp [updateAcquiredValue_of_mem hr]
  · have ha := (updateAcquiredValue_aset junk v hr).1
    refine ⟨fun _ => lookup_upsert ha (fun _ => rfl), fun hp => ?_⟩
    have hlook := lookup_upsert ha fun _ => rfl
    simp only [OzTags.updateAcquiredValue, rsetGet_isSome, hr, decide_false, Bool.false_eq_true,
      if_false] at hp ha hlook ⊢
    split at hp
    · cases hp
    · rename_i hne
      split at hp
      · cases hp
      · rename_i hall
        rw [if_neg hne, if_neg hall] at ha hlook ⊢
        refine ⟨score_upsert h ha (fun _ => rfl) rfl rfl (fun _ _ _ => rfl)
          fun hq => absurd hq hne, hlook.trans ?_⟩
        cases hq : e.acquired with
        | none => simp [hq, OzTags.deref] at hall
        | some q => exact (OzTags.lookup_of_mem (h.acquired q hq)).symm

/-- The loop of the increment: if nothing changed for any tag, nothing that is shown did. -/
theorem ozIncrease_score (junk : Lc → ℚ) (h : OzWf e) (v : ℚ) (ts : List Lc) :
    let p := ozIncrease junk v e ts
    (p.2 ≠ 0 → p.1.lookup = true) ∧ (p.2 = 0 → p.1.score = e.score ∧ p.1.lookup = e.lookup) := by
  have hwf : ∀ ts, OzWf (ozIncrease junk v e ts).1 := fun ts => h.apply none (.inc v ts)
  induction ts using List.reverseRecOn with
  | nil => exact ⟨fun hp => absurd rfl hp, fun _ => ⟨rfl, rfl⟩⟩
  | append_singleton ts t ih =>
    have hstep := updateAcquiredValue_score junk (hwf ts) t v
    have heq : ozIncrease junk v e (ts ++ [t]) =
        (((ozIncrease junk v e ts).1.updateAcquiredValue junk t v).1,
          (ozIncrease junk v e ts).2 +
            ((ozIncrease junk v e ts).1.updateAcquiredValue junk t v).2.toNat) := by
      simp [ozIncrease]
    simp only at hstep ih
    rw [heq]
    cases hb : ((ozIncrease junk v e ts).1.updateAcquiredValue junk t v).2 with
    | true =>
      refine ⟨fun _ => hstep.1 hb, fun hp => ?_⟩
      simp at hp
    | false =>
      obtain ⟨hs, hl⟩ := hstep.2 hb
      simp only [Bool.toNat_false, add_zero, hs, hl]
      exact ih

/-- A pointer that a remove keeps, and its entry. -/
theorem removeTag_deref (h : OzWf e) (t : Lc) :
    let e' := e.removeTag t
    (e'.innate.isSome → e'.innate = e.innate ∧ e'.deref e'.innate = e.deref e.innate) ∧
      (e'.acquired.isSome →
        e'.acquired = e.acquired ∧ e'.deref e'.acquired = e.deref e.acquired) := by
  by_cases hr : t ∈ e.rset
  · simp [removeTag_of_mem hr]
  · have hkeep : ∀ p : Option Lc, (∀ t' ∈ p, t' ∈ e.aset.map OzAse.t) →
        (if p = some t ∧ t ∈ e.aset.map OzAse.t then none else p).isSome →
        (if p = some t ∧ t ∈ e.aset.map OzAse.t then none else p) = p ∧
          (e.removeTag t).deref (if p = some t ∧ t ∈ e.aset.map OzAse.t then none else p) =
            e.deref p := by
      intro p hp hs
      split at hs
      · cases hs
      · rename_i hne
        rw [if_neg hne]
        refine ⟨rfl, ?_⟩
        cases p with
        | none => rfl
        | some t' =>
          have ht : t' ≠ t := fun he => hne ⟨by rw [he], he ▸ hp t' rfl⟩
          have := ozTag_removeTag h t t'
          rw [if_neg ht] at this
          exact (Prod.mk.inj this).2
    have heq := removeTag_eq hr
    have hi : (e.removeTag t).innate =
        if e.innate = some t ∧ t ∈ e.aset.map OzAse.t then none else e.innate := by rw [heq]
    have hq : (e.removeTag t).acquired =
        if e.acquired = some t ∧ t ∈ e.aset.map OzAse.t then none else e.acquired := by rw [heq]
    simp only [hi, hq]
    exact ⟨hkeep _ h.innate, hkeep _ h.acquired⟩

theorem removeTags_deref (h : OzWf e) (ts : List Lc) :
    let e' := ts.foldl OzTags.removeTag e
    (e'.innate.isSome → e'.innate = e.innate ∧ e'.deref e'.innate = e.deref e.innate) ∧
      (e'.acquired.isSome →
        e'.acquired = e.acquired ∧ e'.deref e'.acquired = e.deref e.acquired) := by
  induction ts generalizing e with
  | nil => exact ⟨fun _ => ⟨rfl, rfl⟩, fun _ => ⟨rfl, rfl⟩⟩
  | cons t ts ih =>
    obtain ⟨hi, hq⟩ := ih (h.removeTag t)
    obtain ⟨hi₁, hq₁⟩ := removeTag_deref h t
    refine ⟨fun hs => ?_, fun hs => ?_⟩
    · obtain ⟨h₁, h₂⟩ := hi hs
      obtain ⟨h₃, h₄⟩ := hi₁ (h₁ ▸ hs)
      exact ⟨h₁.trans h₃, h₂.trans h₄⟩
    · obtain ⟨h₁, h₂⟩ := hq hs
      obtain ⟨h₃, h₄⟩ := hq₁ (h₁ ▸ hs)
      exact ⟨h₁.trans h₃, h₂.trans h₄⟩

/-- **Every message keeps the visible score**, an add if `innate` is not already the entry of its
tag with another value. -/
theorem ScoreOk.apply (hz : ScoreOk e z) (h : OzWf e) (m : OzMsg)
    (hx : ∀ v t, m = .add v t → e.innate = some t → ∀ a, e.asetGet t = some a → a.x = v) :
    ScoreOk (ozApply junk e z m).1 (ozApply junk e z m).2 := by
  cases m with
  | add v t =>
    obtain ⟨h₁, h₀⟩ := updateInnateValue_score junk h (hx v t rfl)
    simp only [ozApply]
    cases hb : (e.updateInnateValue junk t v).2 with
    | true => simp [ScoreOk, h₁ hb]
    | false =>
      obtain ⟨hs, hl⟩ := h₀ hb
      simpa [ScoreOk, hs, hl] using hz
  | inc v ts =>
    obtain ⟨h₁, h₀⟩ := ozIncrease_score junk h v ts
    simp only [ozApply]
    by_cases hb : (ozIncrease junk v e ts).2 = 0
    · obtain ⟨hs, hl⟩ := h₀ hb
      simpa [ScoreOk, hs, hl, hb] using hz
    · simp [ScoreOk, h₁ hb, hb]
  | rem ts =>
    simp only [ozApply]
    split
    · rfl
    · rename_i hne
      simp only [Bool.or_eq_true, not_or, Option.isNone_iff_eq_none] at hne
      obtain ⟨hi, hq⟩ := removeTags_deref h ts
      obtain ⟨i, hi'⟩ := Option.ne_none_iff_exists'.mp hne.1
      obtain ⟨q, hq'⟩ := Option.ne_none_iff_exists'.mp hne.2
      obtain ⟨hi₁, hi₂⟩ := hi (by rw [hi']; rfl)
      obtain ⟨-, hq₂⟩ := hq (by rw [hq']; rfl)
      have hl : (ts.foldl OzTags.removeTag e).lookup = true :=
        OzTags.lookup_of_mem ((h.removeTags ts).innate i hi')
      have hl' : e.lookup = true := OzTags.lookup_of_mem (h.innate i (hi₁ ▸ hi'))
      have hs : (ts.foldl OzTags.removeTag e).score = e.score := by
        rw [OzTags.score, OzTags.score, hi₂, hq₂]
      simpa [ScoreOk, hs, hl, hl'] using hz

end Apply

/-! ## Runs -/

section Element

variable {junk : Fin n → Lc → ℚ} {s : OzSys n} {G : OzSys n → Ev (Fin n) ZCmd → Prop}

/-- The origin of tag `t` has taken it. -/
def Taken (s : OzSys n) (t : Lc) : Prop :=
  ∀ q : Fin n, t.id = ((q : ℕ) : ℤ) → t.x < (s.st q).get.current

/-- The message is about the tag. -/
def OzMsg.about (t : Lc) (m : OzMsg) : Bool := m.names t || m.removes t

/-- The live tags of a replica and the removed ones are named by messages. -/
theorem taken_of_mem (hs : (ozEleObj n junk).Reach G s)
    (h : ∀ i o m, s.log i = some (o, m) → ∀ t, m.about t = true → Taken s t) {r : Fin n} {t : Lc}
    (ht : t ∈ (s.st r).get.aset.map OzAse.t ∨ t ∈ (s.st r).get.rset) : Taken s t := by
  rcases ht with ht | ht
  · obtain ⟨⟨i, -, m, hm, hn⟩, -⟩ := ((ozEle_closed hs r).aset t).mp ht
    obtain ⟨⟨o, m'⟩, hl, rfl⟩ := Option.map_eq_some_iff.mp hm
    exact h i o m' hl t (by simp [OzMsg.about, hn])
  · obtain ⟨i, -, m, hm, hn⟩ := ((ozEle_closed hs r).rset t).mp ht
    obtain ⟨⟨o, m'⟩, hl, rfl⟩ := Option.map_eq_some_iff.mp hm
    exact h i o m' hl t (by simp [OzMsg.about, hn])

/-- The tags that the messages are about have been taken. -/
theorem ozEle_named (hs : (ozEleObj n junk).Reach G s) :
    ∀ i o m, s.log i = some (o, m) → ∀ t, m.about t = true → Taken s t := by
  refine hs.rule (I := fun s => ∀ i o m, s.log i = some (o, m) → ∀ t, m.about t = true →
    Taken s t) nofun ?_ ?_ ?_
  · intro s r o i s₁ _ h _ hp j o' m hj t ht q hq
    obtain ⟨rfl, -⟩ := Prod.mk.inj hp
    exact (h j o' m hj t ht q hq).trans_le
      (ozCurrent_update s.st (ozPrepare_current r (s.st r) o) q)
  · intro s r o i s₁ m hs h _ hp hl
    obtain ⟨rfl, hm⟩ := Prod.mk.inj hp
    -- What was taken stays taken.
    have hold : ∀ t, Taken s t →
        Taken ((ozEleObj n junk).issue s r i (ozPrepare r (s.st r) o).1 m) t := by
      intro t ht q hq
      exact (ht q hq).trans_le (ozCurrent_update s.st
        (c := ozEffect (junk r) (ozPrepare r (s.st r) o).1 m) (ozPrepare_current r (s.st r) o) q)
    intro j o' m' hj t ht
    rcases Obj.issue_log_cases hj with ⟨-, hx⟩ | ⟨-, hj⟩
    · cases hx
      rcases ozPrepare_some hm with ⟨v, rfl, hc⟩ | ⟨-, ⟨v, rfl⟩ | rfl⟩
      · obtain rfl : ⟨(s.st r).get.current, (r : ℕ)⟩ = t := by
          simpa [OzMsg.about, OzMsg.names, OzMsg.removes] using ht
        intro q hq
        have hq' : ((r : ℕ) : ℤ) = ((q : ℕ) : ℤ) := hq
        have hqr : q = r := Fin.ext (by exact_mod_cast hq'.symm)
        subst hqr
        rw [Obj.issue_st_self]
        show (s.st q).get.current < (ozPrepare q (s.st q) o).1.get.current
        rw [hc]; exact lt_add_one _
      · exact hold t (taken_of_mem hs h (r := r)
          (.inl (by simpa [OzMsg.about, OzMsg.names, OzMsg.removes] using ht)))
      · exact hold t (taken_of_mem hs h (r := r)
          (.inl (by simpa [OzMsg.about, OzMsg.names, OzMsg.removes] using ht)))
    · exact hold t (h j o' m' hj t ht)
  · intro s r i o m _ h _ _ _ j o' m' hj t ht q hq
    exact (h j o' m' hj t ht q hq).trans_le
      (ozCurrent_update s.st (c := ozEffect (junk r) (s.st r) m) le_rfl q)

/-- No add is received where `innate` is already the entry of its tag, with another value. -/
def ozFresh (s : OzSys n) : Ev (Fin n) ZCmd → Prop
  | .op _ _ _ => True
  | .recv r i => ∀ o v t, s.log i = some (o, .add v t) → (s.st r).get.innate = some t →
      ∀ a, (s.st r).get.asetGet t = some a → a.x = v

theorem ozPrepare_zset (r : Fin n) (c : OzCell) (o : ZCmd) : (ozPrepare r c o).1.zset = c.zset := by
  cases o with
  | zadd argc v =>
    simp only [ozPrepare]
    split
    · rfl
    · rfl
    · split <;> rfl
  | zincrby argc v => simp only [ozPrepare]; split <;> rfl
  | zrem argc => simp only [ozPrepare]; split <;> rfl

/-- The visible score of one element, in every run that satisfies the guard. -/
theorem ozEle_score (hs : (ozEleObj n junk).Reach ozFresh s) :
    ∀ r, ScoreOk (s.st r).get.toOzTags (s.st r).zset := by
  refine (hs.local_rule (I := fun _ c => ScoreOk c.get.toOzTags c.zset) (Q := fun _ => True)
    ?_ ?_ ?_).1
  · exact fun r => rfl
  · intro s r o i x₁ res hs h _ hp
    obtain ⟨rfl, hres⟩ := Prod.mk.inj hp
    have hz : ScoreOk (ozPrepare r (s.st r) o).1.get.toOzTags
        (ozPrepare r (s.st r) o).1.zset := by
      rw [ozPrepare_tags, ozPrepare_zset]; exact h
    have hwf : OzWf (ozPrepare r (s.st r) o).1.get.toOzTags := by
      rw [ozPrepare_tags]; exact ozEle_wf hs r
    refine ⟨hz, fun m hm => ⟨trivial, hz.apply hwf m ?_⟩⟩
    -- The tag of an add is new at its origin.
    rintro v t rfl hi
    exfalso
    rw [ozPrepare_tags] at hi
    have ht := taken_of_mem hs (ozEle_named hs) (.inl ((ozEle_wf hs r).innate t hi))
    rcases ozPrepare_some (hres.trans hm) with ⟨v', he, -⟩ | ⟨-, ⟨v', he⟩ | he⟩
    · cases he
      exact lt_irrefl _ (ht r rfl)
    · cases he
    · cases he
  · intro s r i o m hs h hg hl _
    refine h.apply (ozEle_wf hs r) m ?_
    rintro v t rfl
    exact hg o v t hl

end Element

/-! ## The queue -/

section Queue

variable {junk : Sds → Fin n → Lc → ℚ}

/-- The guard of the runs of the queue: no `ozadd` is received where `innate` of the element is
already the entry of its tag, with another `x`. -/
def ozScoreGuard (s : Sys (Fin n) (Sds → OzCell) (Sds × OzMsg)) : Ev (Fin n) (Sds × ZCmd) → Prop
  | .op _ _ _ => True
  | .recv r i => ∀ o k v t, s.log i = some (o, (k, .add v t)) → (s.st r k).get.innate = some t →
      ∀ a, (s.st r k).get.asetGet t = some a → a.x = v

/-- **The visible score**: in every run of the queue that satisfies the guard, an element is a
member of the sorted set iff `LOOKUP`, with the score `SCORE`. -/
theorem oz_score {s : Sys (Fin n) (Sds → OzCell) (Sds × OzMsg)}
    (hs : (ozObj n junk).Reach ozScoreGuard s) (k : Sds) (r : Fin n) :
    ((s.st r k).zset.isSome ↔ (s.st r k).get.lookup = true) ∧
      ((s.st r k).get.lookup = true → (s.st r k).zset = some (s.st r k).get.score) := by
  have hk : (ozEleObj n (junk k)).Reach ozFresh (ozOn junk s k) := by
    refine ((keyedView _ k).reach (H := ozFresh) (fun _ _ _ _ _ => trivial)
      (fun _ _ _ _ => trivial) ?_ hs).1
    intro s r i m _ hg _ o v t hl hi a ha
    obtain ⟨⟨k', m'⟩, hl', hm'⟩ := View.sys_log_some _ hl
    simp only [keyedView, Option.ite_none_right_eq_some, Option.some.injEq] at hm'
    obtain ⟨rfl, rfl⟩ := hm'
    exact hg o k' v t hl' hi a ha
  have hz : ScoreOk (s.st r k).get.toOzTags (s.st r k).zset := ozEle_score hk r
  rw [ScoreOk] at hz
  refine ⟨?_, fun hl => by rw [hz, if_pos hl]⟩
  rw [hz]
  split
  · rename_i hl; simp [hl]
  · rename_i hl; simp [hl]

/-- A test for the guard. -/
def ozScoreGuardOk (s : Sys (Fin n) (Sds → OzCell) (Sds × OzMsg)) : Ev (Fin n) (Sds × ZCmd) → Bool
  | .op _ _ _ => true
  | .recv r i =>
    match s.log i with
    | some (_, (k, .add v t)) =>
      (s.st r k).get.innate != some t || ((s.st r k).get.asetGet t).all (·.x == v)
    | _ => true

theorem ozScoreGuard_of_ok (s : Sys (Fin n) (Sds → OzCell) (Sds × OzMsg))
    (e : Ev (Fin n) (Sds × ZCmd)) (h : ozScoreGuardOk s e = true) : ozScoreGuard s e := by
  cases e with
  | op r o i => trivial
  | recv r i =>
    intro o k v t hl hi a ha
    simpa [ozScoreGuardOk, hl, hi, ha] using h

/-- The hypothesis holds of a run with two concurrent adds, an increment and a remove. -/
theorem oz_score_demo :
    let s := (ozObj 2 fun _ _ _ => 0).runOf ozDemo
    ((s.st 1 ['a']).zset.isSome ↔ (s.st 1 ['a']).get.lookup = true) ∧
      ((s.st 1 ['a']).get.lookup = true →
        (s.st 1 ['a']).zset = some (s.st 1 ['a']).get.score) :=
  oz_score (Obj.reach_runOf ozScoreGuard_of_ok ozDemo (by decide +kernel)) ['a'] 1

/-- Replicas 0 and 1 add the element, replica 2 increments the tag of replica 1, and replica 0
removes its own tag. Replica 3 receives the add of replica 1 last. -/
def ozStaleRun : List (Ev (Fin 4) (Sds × ZCmd)) :=
  let a : Sds := ['a']
  [.op 0 (a, .zadd 4 (some 5)) 0, .op 1 (a, .zadd 4 (some 7)) 1, .recv 2 1,
    .op 2 (a, .zincrby 4 (some 2)) 2, .op 0 (a, .zrem 3) 3,
    .recv 3 0, .recv 3 2, .recv 3 3, .recv 3 1]

/-- The links are FIFO, and replica 3 shows the score 2 of an element whose score is 9. -/
theorem oz_score_stale :
    let s := (ozObj 4 fun _ _ _ => 0).runOf ozStaleRun
    (ozObj 4 fun _ _ _ => 0).Reach fifo s ∧ (s.st 3 ['a']).get.lookup = true ∧
      (s.st 3 ['a']).zset = some 2 ∧ (s.st 3 ['a']).get.score = 9 :=
  ⟨Obj.reach_runOf Obj.fifo_of_fifoOk ozStaleRun (by decide +kernel), by decide +kernel,
    by decide +kernel, by decide +kernel⟩

end Queue

end CrdtRedis
