import CrdtRedis.Broadcast.Causal
import CrdtRedis.OZset.Score

/-!
# What `innate` and `acquired` point to

The score of an element of the Add-Win queue is the value of one live tag and the increment of one
live tag. The effect phases choose the two tags as messages arrive; `resort` chooses again after a
remove.

* `AcqOk`: `acquired` is the greatest live tag in the order of `acquires` (`acqKey`), in every run
  (`ozEle_acquired`); a tag that no increment changed may be passed over.
* `InnateTop`: no live tag whose add was applied is above `innate`, in every run
  (`ozEle_innateTop`).
* `InnateMax`: `innate` is the greatest of the live tags whose add was applied. Every message keeps
  this, except a remove after which `resort` elects a tag whose add was not applied
  (`InnateMax.apply`). It elects if the remove leaves one of the pointers NULL (`Reelects`), and
  then the greatest tag that is left (`Survives`).
* `oz_innate`: so it holds in every run in which no remove is received like this, and replicas that
  applied the same messages have the same score.
* `oz_innate_unadded`: a run in which one is.
-/

namespace CrdtRedis

open Broadcast

variable {n : ℕ}

/-! ## The search for a greatest entry -/

/-- A search that replaces its candidate by a greater one finds the greatest. -/
theorem foldl_pick_max {α K : Type} [LinearOrder K] {p : α → α → Bool} (key : α → K)
    (hp : ∀ q a, p q a = true ↔ key q < key a) (l : List α) (q : Option α) (x : α)
    (hx : x ∈ q ∨ x ∈ l) :
    ∃ b ∈ l.foldl (fun q a => if q.all (p · a) then some a else q) q, key x ≤ key b := by
  induction l generalizing q x with
  | nil => exact ⟨x, hx.resolve_right List.not_mem_nil, le_rfl⟩
  | cons a l ih =>
    rw [List.foldl_cons]
    -- The candidate after `a` is at least `a` and at least the old one.
    have hstep : ∀ y, y ∈ q ∨ y = a →
        ∃ z ∈ (if q.all (p · a) then some a else q), key y ≤ key z := by
      intro y hy
      cases q with
      | none =>
        obtain rfl : y = a := by simpa using hy
        exact ⟨y, by simp, le_rfl⟩
      | some c =>
        by_cases hc : p c a = true
        · refine ⟨a, by simp [hc], ?_⟩
          rcases hy with hy | rfl
          · obtain rfl : c = y := by simpa using hy
            exact ((hp c a).mp hc).le
          · exact le_rfl
        · refine ⟨c, by simp [hc], ?_⟩
          rcases hy with hy | rfl
          · obtain rfl : c = y := by simpa using hy
            exact le_rfl
          · exact not_lt.mp fun hlt => hc ((hp c y).mpr hlt)
    rcases hx with hx | hx
    · obtain ⟨z, hz, hle⟩ := hstep x (.inl hx)
      obtain ⟨b, hb, hle'⟩ := ih _ z (.inl hz)
      exact ⟨b, hb, hle.trans hle'⟩
    · rcases List.mem_cons.mp hx with rfl | hx
      · obtain ⟨z, hz, hle⟩ := hstep x (.inr rfl)
        obtain ⟨b, hb, hle'⟩ := ih _ z (.inl hz)
        exact ⟨b, hb, hle.trans hle'⟩
      · exact ih _ x (.inr hx)

/-- There is a greatest element. -/
theorem exists_greatest {α K : Type} [LinearOrder K] (key : α → K) {l : List α} (hl : l ≠ []) :
    ∃ b ∈ l, ∀ c ∈ l, key c ≤ key b := by
  cases hb : l.argmax key with
  | none => exact absurd (List.argmax_eq_none.mp hb) hl
  | some b => exact ⟨b, List.argmax_mem hb, fun c hc => List.le_of_mem_argmax hc hb⟩

/-! ## `acquired` -/

/-- The order of `acquires`: the count first, then the tag. -/
def acqKey (a : OzAse) : ℚ ×ₗ (ℤ ×ₗ ℤ) := toLex (a.count, a.t.tagKey)

theorem acquires_iff {q a : OzAse} : acquires q a = true ↔ acqKey q < acqKey a := by
  simp only [acquires, acqKey, Bool.or_eq_true, Bool.and_eq_true, decide_eq_true_eq, beq_iff_eq,
    Prod.Lex.toLex_lt_toLex, lcCmpAsTag_lt_zero]

theorem acqKey_le {a b : OzAse} (h : acqKey a ≤ acqKey b) : a.count ≤ b.count :=
  (Prod.Lex.le_iff.mp h).elim le_of_lt fun h => h.1.le

/-- `acquired` is the greatest live tag, where tags without increments may be passed over. -/
structure AcqMax (e : OzTags) : Prop where
  max : ∀ q ∈ e.deref e.acquired, ∀ a ∈ e.aset, a.count = 0 ∨ acqKey a ≤ acqKey q
  nonneg : ∀ a ∈ e.aset, 0 ≤ a.count

/-- And it is NULL only if there are no increments. -/
structure AcqOk (e : OzTags) : Prop extends AcqMax e where
  null : e.acquired = none → ∀ a ∈ e.aset, a.count = 0

section Acquired

variable {junk : Lc → ℚ} {e e' : OzTags} {t : Lc} {v : ℚ}

theorem mem_upsert_cases {new a : OzAse} {f : OzAse → OzAse} {l : List OzAse}
    (h : a ∈ upsert t new f l) : a ∈ l ∨ a = f ((l.find? (tagIs t)).getD new) := by
  induction l with
  | nil => simpa [upsert] using h
  | cons b l ih =>
    by_cases hb : tagIs t b
    · simp only [upsert, if_pos hb, List.mem_cons] at h
      rcases h with rfl | h
      · exact .inr (by simp [hb])
      · exact .inl (List.mem_cons_of_mem _ h)
    · simp only [upsert, if_neg hb, List.mem_cons] at h
      rcases h with rfl | h
      · exact .inl (List.mem_cons_self ..)
      · exact (ih h).imp (List.mem_cons_of_mem _) fun h => by simpa [hb] using h

theorem OzWf.deref_mem {q : OzAse} {p : Option Lc} (h : q ∈ e.deref p) :
    q ∈ e.aset ∧ p = some q.t := by
  obtain ⟨t', rfl, hg⟩ := Option.bind_eq_some_iff.mp h
  obtain ⟨rfl, hm⟩ := find?_tagIs hg
  exact ⟨hm, rfl⟩

/-- A pointer to no entry is NULL. -/
theorem OzWf.acquired_null (hw : OzWf e) (hd : e.deref e.acquired = none) : e.acquired = none := by
  by_contra hne
  obtain ⟨t, ht⟩ := Option.ne_none_iff_exists'.mp hne
  have hno := find?_tagIs_none.mp (by simpa [OzTags.deref, ht, OzTags.asetGet] using hd)
  exact hno (hw.acquired t ht)

/-- The entry before an update has the old count, none if it is new. -/
theorem count_getD (junk : Lc → ℚ) (P : OzAse → Prop) (h : ∀ a ∈ e.aset, P a)
    (h₀ : P (addAse junk t)) : P ((e.asetGet t).getD (addAse junk t)) := by
  cases hg : e.asetGet t with
  | none => exact h₀
  | some a => exact h a (find?_tagIs hg).2

theorem AcqOk.updateInnateValue (h : AcqOk e) (hw : OzWf e) (t : Lc) (v : ℚ) :
    AcqOk (e.updateInnateValue junk t v).1 := by
  by_cases hr : t ∈ e.rset
  · rw [updateInnateValue_of_mem hr]; exact h
  · have ha := (updateInnateValue_aset junk v hr).1
    have hq : (e.updateInnateValue junk t v).1.acquired = e.acquired := by
      simp only [OzTags.updateInnateValue, rsetGet_isSome, hr, decide_false, Bool.false_eq_true,
        if_false]
      split <;> rfl
    have hkey := deref_upsert ha (fun _ => rfl) e.acquired acqKey hw.acquired fun _ _ _ => rfl
    generalize (e.updateInnateValue junk t v).1 = e' at ha hq hkey ⊢
    -- An entry has the count that it had, or is new.
    have hcount : ∀ P : OzAse → Prop, (∀ a ∈ e.aset, P a) → P (addAse junk t) →
        (∀ a, P a → P { a with x := v }) → ∀ a ∈ e'.aset, P a := by
      intro P hP h₀ hx a hm
      rw [ha] at hm
      rcases mem_upsert_cases hm with hm | rfl
      · exact hP a hm
      · exact hx _ (count_getD junk P hP h₀)
    refine ⟨⟨fun q hq' a hm => ?_, ?_⟩, fun hn => ?_⟩
    · rw [hq] at hq'
      have hmap : (e'.deref e.acquired).map acqKey = some (acqKey q) := by rw [hq']; rfl
      rw [hkey] at hmap
      obtain ⟨q₀, hq₀, hk⟩ := Option.map_eq_some_iff.mp hmap
      rw [← hk]
      exact hcount (fun a => a.count = 0 ∨ acqKey a ≤ acqKey q₀) (h.max q₀ hq₀) (.inl rfl)
        (fun _ h => h) a hm
    · exact hcount (fun a => 0 ≤ a.count) h.nonneg le_rfl fun _ h => h
    · exact hcount (fun a => a.count = 0) (h.null (hq ▸ hn)) rfl fun _ h => h

/-- The entry of `t` after an increment. -/
theorem acqKey_increase (a : OzAse) (v : ℚ) : acqKey a ≤ acqKey (OzTags.increase v a) := by
  have hle : a.count ≤ (OzTags.increase v a).count := by
    simp only [OzTags.increase]
    split <;> linarith
  rcases hle.lt_or_eq with hlt | heq
  · exact (Prod.Lex.toLex_lt_toLex.mpr (.inl hlt)).le
  · exact Prod.Lex.toLex_le_toLex.mpr (.inr ⟨heq, le_rfl⟩)

/-- Which of the two `acquired` is after an increment: the tag `t`, if it was or if it replaces the
old one, or the old one. -/
theorem updateAcquiredValue_acquired (junk : Lc → ℚ) (v : ℚ) (hr : t ∉ e.rset) :
    let b := OzTags.increase v ((e.asetGet t).getD (addAse junk t))
    let e' := (e.updateAcquiredValue junk t v).1
    (e'.acquired = some t ∧
      (e.acquired = some t ∨ ∀ q ∈ e.deref e.acquired, acquires q b = true)) ∨
    (e'.acquired = e.acquired ∧ e.acquired ≠ some t ∧
      ∃ q ∈ e.deref e.acquired, acquires q b = false) := by
  intro b
  have hf : ∀ a, (OzTags.increase v a).t = a.t := fun _ => rfl
  have hself : (upsert t (addAse junk t) (OzTags.increase v) e.aset).find? (tagIs t) = some b :=
    find?_upsert_self hf (addAse_t junk t)
  simp only [OzTags.updateAcquiredValue, rsetGet_isSome, hr, decide_false, Bool.false_eq_true,
    if_false]
  by_cases hq : e.acquired = some t
  · rw [if_pos hq]
    exact .inl ⟨hq, .inl hq⟩
  · rw [if_neg hq]
    have hderef : OzTags.deref
        { e with aset := upsert t (addAse junk t) (OzTags.increase v) e.aset } e.acquired =
          e.deref e.acquired := by
      cases hacq : e.acquired with
      | none => rfl
      | some t' =>
        have ht : t' ≠ t := fun h => hq (by rw [hacq, h])
        simp only [OzTags.deref, Option.bind_some, OzTags.asetGet,
          find?_upsert_ne hf (addAse_t junk t) ht]
    simp only [OzTags.asetGet, hself, Option.any_some, hderef]
    split
    · rename_i hall
      exact .inl ⟨rfl, .inr fun q hq => by simpa [Option.mem_def.mp hq] using hall⟩
    · rename_i hall
      refine .inr ⟨rfl, hq, ?_⟩
      cases hd : e.deref e.acquired with
      | none => simp [hd] at hall
      | some q => exact ⟨q, rfl, by simpa [hd] using hall⟩

theorem AcqOk.updateAcquiredValue (h : AcqOk e) (hw : OzWf e) (t : Lc) (v : ℚ) :
    AcqOk (e.updateAcquiredValue junk t v).1 := by
  by_cases hr : t ∈ e.rset
  · rw [updateAcquiredValue_of_mem hr]; exact h
  · have hf : ∀ a, (OzTags.increase v a).t = a.t := fun _ => rfl
    have ha := (updateAcquiredValue_aset junk v hr).1
    have hcases := updateAcquiredValue_acquired junk v hr
    have hself : (upsert t (addAse junk t) (OzTags.increase v) e.aset).find? (tagIs t) =
      some (OzTags.increase v ((e.asetGet t).getD (addAse junk t))) :=
      find?_upsert_self hf (addAse_t junk t)
    have hold := count_getD junk (t := t) (fun a => 0 ≤ a.count) h.nonneg le_rfl
    have hnn : 0 ≤ (OzTags.increase v ((e.asetGet t).getD (addAse junk t))).count :=
      hold.trans (acqKey_le (acqKey_increase _ v))
    have hmem : ∀ a ∈ (e.updateAcquiredValue junk t v).1.aset, a ∈ e.aset ∨
        a = OzTags.increase v ((e.asetGet t).getD (addAse junk t)) := fun a hm =>
      mem_upsert_cases (ha ▸ hm)
    have hkey : ∀ q ∈ e.asetGet t,
        acqKey q ≤ acqKey (OzTags.increase v ((e.asetGet t).getD (addAse junk t))) := by
      intro q hq
      rw [Option.mem_def.mp hq]
      exact acqKey_increase q v
    generalize OzTags.increase v ((e.asetGet t).getD (addAse junk t)) = b at *
    generalize (e.updateAcquiredValue junk t v).1 = e' at *
    have hget : e'.asetGet t = some b := by rw [OzTags.asetGet, ha, hself]
    have hnonneg : ∀ a ∈ e'.aset, 0 ≤ a.count := by
      intro a hm
      rcases hmem a hm with hm | rfl
      · exact h.nonneg a hm
      · exact hnn
    rcases hcases with ⟨hacq, hor⟩ | ⟨hacq, hne, q₀, hq₀, hlt⟩
    · -- The tag is `acquired` now: it was, or it replaced a greatest one.
      refine ⟨⟨fun q hq a hm => ?_, hnonneg⟩, fun hn => by rw [hacq] at hn; cases hn⟩
      obtain rfl : b = q := by simpa [OzTags.deref, hacq, hget] using hq
      rcases hmem a hm with hm | rfl
      · cases hd : e.deref e.acquired with
        | none => exact .inl (h.null (hw.acquired_null hd) a hm)
        | some q₀ =>
          refine (h.max q₀ hd a hm).imp_right fun hle => hle.trans ?_
          rcases hor with hor | hall
          · refine hkey q₀ ?_
            rwa [hor] at hd
          · exact (acquires_iff.mp (hall q₀ hd)).le
      · exact .inr le_rfl
    · -- The old one stays, and the tag does not replace it.
      have hd : e'.deref e'.acquired = some q₀ := by
        rw [hacq]
        obtain ⟨t', ht', hg⟩ := Option.bind_eq_some_iff.mp hq₀
        have ht : t' ≠ t := fun he => hne (by rw [ht', he])
        rw [ht', OzTags.deref, Option.bind_some, OzTags.asetGet, ha,
          find?_upsert_ne hf (addAse_t junk t) ht]
        exact hg
      refine ⟨⟨fun q hq a hm => ?_, hnonneg⟩, fun hn => ?_⟩
      · obtain rfl : q₀ = q := by simpa [hd] using hq
        rcases hmem a hm with hm | rfl
        · exact h.max q₀ hq₀ a hm
        · exact .inr (not_lt.mp fun hc => by rw [acquires_iff.mpr hc] at hlt; cases hlt)
      · rw [hn] at hd; cases hd

theorem AcqMax.removeTags (h : AcqMax e) (hw : OzWf e) (ts : List Lc) :
    AcqMax (ts.foldl OzTags.removeTag e) := by
  have hsub : (ts.foldl OzTags.removeTag e).aset ⊆ e.aset := by
    clear h hw
    induction ts generalizing e with
    | nil => exact List.Subset.refl _
    | cons t ts ih =>
      refine List.Subset.trans (ih (e := e.removeTag t)) ?_
      by_cases hr : t ∈ e.rset
      · rw [removeTag_of_mem hr]
        exact List.Subset.refl _
      · rw [removeTag_eq hr]
        exact List.eraseP_subset
  refine ⟨fun q hq a ha => ?_, fun a ha => h.nonneg a (hsub ha)⟩
  -- A pointer that is left is the old one.
  have hsome : (ts.foldl OzTags.removeTag e).acquired.isSome := by
    rw [(OzWf.deref_mem hq).2]; rfl
  obtain ⟨-, hd⟩ := (removeTags_deref hw ts).2 hsome
  exact h.max q (hd ▸ hq) a (hsub ha)

theorem AcqMax.resort (h : AcqMax e) (hw : OzWf e) : AcqOk e.resort := by
  obtain ⟨ha, -⟩ := resort_aset e
  have hnonneg : ∀ a ∈ e.resort.aset, 0 ≤ a.count := ha ▸ h.nonneg
  unfold OzTags.resort at ha hnonneg ⊢
  split
  · rename_i hs
    simp only [Bool.and_eq_true] at hs
    refine ⟨h, fun hn => ?_⟩
    rw [hn] at hs
    cases hs.2
  · rename_i hs
    rw [if_neg hs] at hnonneg
    have hmax := foldl_pick_max acqKey (p := acquires) (fun q a => acquires_iff) e.aset
      (e.deref e.acquired)
    have hin := mem_foldl_pick (fun q a => q.all (acquires · a)) e.aset (e.deref e.acquired)
    refine ⟨⟨fun q hq a hm => .inr ?_, hnonneg⟩, fun hn a hm => ?_⟩
    · obtain ⟨b, hb, hle⟩ := hmax a (.inr hm)
      have hbm : b ∈ e.aset := (hin b hb).elim (fun hb => (OzWf.deref_mem hb).1) id
      obtain ⟨hqm, hqt⟩ := OzWf.deref_mem hq
      have ht : some b.t = some q.t := (congrArg (Option.map OzAse.t) hb).symm.trans hqt
      have hfind := find?_of_mem hw.nodup hbm
      rw [Option.some.inj ht, find?_of_mem hw.nodup hqm] at hfind
      rwa [Option.some.inj hfind]
    · obtain ⟨b, hb, -⟩ := hmax a (.inr hm)
      rw [Option.map_eq_none_iff.mp hn] at hb
      cases hb

theorem AcqOk.apply (h : AcqOk e) (hw : OzWf e) (z : Option ℚ) (m : OzMsg) :
    AcqOk (ozApply junk e z m).1 := by
  cases m with
  | add v t => exact h.updateInnateValue hw t v
  | inc v ts =>
    show AcqOk (ozIncrease junk v e ts).1
    rw [ozIncrease_fst]
    induction ts generalizing e with
    | nil => exact h
    | cons t ts ih => exact ih (h.updateAcquiredValue hw t v) (hw.updateAcquiredValue t v)
  | rem ts =>
    simp only [ozApply]
    split
    · exact (h.removeTags hw ts).resort (hw.removeTags ts)
    · rename_i hs
      simp only [Bool.or_eq_true, not_or, Option.isNone_iff_eq_none] at hs
      exact ⟨h.removeTags hw ts, fun hn => absurd hn hs.2⟩

end Acquired

/-! ### The increment that is shown -/

/-- The increment of the score. -/
def OzTags.shownInc (e : OzTags) : ℚ := ((e.deref e.acquired).map OzAse.inc).getD 0

section Shown

variable {e e' : OzTags}

/-- Entries with one tag are one. -/
theorem OzWf.eq_of_tag (hw : OzWf e) {a b : OzAse} (ha : a ∈ e.aset) (hb : b ∈ e.aset)
    (ht : a.t = b.t) : a = b := by
  have h := find?_of_mem hw.nodup ha
  rw [ht, find?_of_mem hw.nodup hb] at h
  exact (Option.some.inj h).symm

/-- The increment that is shown is that of every greatest entry. -/
theorem AcqOk.shownInc (h : AcqOk e) (hw : OzWf e) (hinc : ∀ a ∈ e.aset, a.count = 0 → a.inc = 0)
    {a : OzAse} (ha : a ∈ e.aset) (hmax : ∀ b ∈ e.aset, b.count = 0 ∨ acqKey b ≤ acqKey a) :
    e.shownInc = a.inc := by
  cases hd : e.deref e.acquired with
  | none =>
    simp [OzTags.shownInc, hd, hinc a ha (h.null (hw.acquired_null hd) a ha)]
  | some q =>
    have hq := (OzWf.deref_mem hd).1
    have hshown : e.shownInc = q.inc := by simp [OzTags.shownInc, hd]
    rw [hshown]
    -- Two greatest entries are one, or neither has an increment.
    have hzero : q.count = 0 → a.count = 0 → q.inc = a.inc := fun hq₀ ha₀ => by
      rw [hinc q hq hq₀, hinc a ha ha₀]
    rcases hmax q hq with hq₀ | hle
    · rcases h.max q hd a ha with ha₀ | hge
      · exact hzero hq₀ ha₀
      · exact hzero hq₀ (le_antisymm ((acqKey_le hge).trans hq₀.le) (h.nonneg a ha))
    · rcases h.max q hd a ha with ha₀ | hge
      · exact hzero (le_antisymm ((acqKey_le hle).trans ha₀.le) (h.nonneg q hq)) ha₀
      · have hkey : q.t.tagKey = a.t.tagKey := congrArg (fun k => (ofLex k).2) (le_antisymm hle hge)
        rw [hw.eq_of_tag hq ha (Lc.tagKey_inj.mp hkey)]

/-- An increment of all entries by `d` is an increment of the score by `d`. -/
theorem AcqOk.shownInc_add (h : AcqOk e) (h' : AcqOk e') (hw : OzWf e) (hw' : OzWf e')
    (hinc : ∀ a ∈ e.aset, a.count = 0 → a.inc = 0) {d : ℚ} (hne : e.aset = [] → d = 0)
    (htags : ∀ t, t ∈ e'.aset.map OzAse.t ↔ t ∈ e.aset.map OzAse.t)
    (hent : ∀ a ∈ e.aset, ∀ a' ∈ e'.aset, a'.t = a.t →
      a'.inc = a.inc + d ∧ a'.count = a.count + |d|) : e'.shownInc = e.shownInc + d := by
  -- Each entry after the increment has one before.
  have hold : ∀ a' ∈ e'.aset, ∃ a ∈ e.aset, a'.t = a.t ∧ a'.inc = a.inc + d ∧
      a'.count = a.count + |d| := by
    intro a' ha'
    obtain ⟨a, ha, hat⟩ := List.mem_map.mp ((htags a'.t).mp (List.mem_map_of_mem ha'))
    exact ⟨a, ha, hat.symm, hent a ha a' ha' hat.symm⟩
  have hinc' : ∀ a ∈ e'.aset, a.count = 0 → a.inc = 0 := by
    intro a' ha' h₀
    obtain ⟨a, ha, -, hi, hc⟩ := hold a' ha'
    have hnn := h.nonneg a ha
    have habs := abs_nonneg d
    have hd : d = 0 := abs_eq_zero.mp (by linarith)
    rw [hi, hinc a ha (by linarith), hd, add_zero]
  by_cases hnil : e.aset = []
  · have hnil' : e'.aset = [] := by
      rw [← List.map_eq_nil_iff (f := OzAse.t), List.eq_nil_iff_forall_not_mem]
      intro t ht
      simpa [hnil] using (htags t).mp ht
    have hz : ∀ e : OzTags, e.aset = [] → e.shownInc = 0 := by
      intro e he
      cases hd : e.deref e.acquired with
      | none => simp [OzTags.shownInc, hd]
      | some q =>
        have hq := (OzWf.deref_mem hd).1
        rw [he] at hq
        cases hq
    rw [hz e' hnil', hz e hnil, hne hnil, add_zero]
  · obtain ⟨b, hbm, hmax⟩ := exists_greatest acqKey hnil
    obtain ⟨b', hb', hbt⟩ := List.mem_map.mp ((htags b.t).mpr (List.mem_map_of_mem hbm))
    obtain ⟨hbi, hbc⟩ := hent b hbm b' hb' hbt
    rw [h.shownInc hw hinc hbm fun c hc => .inr (hmax c hc), ← hbi]
    refine h'.shownInc hw' hinc' hb' fun c' hc' => .inr ?_
    obtain ⟨c, hc, hct, -, hcc⟩ := hold c' hc'
    have hle := Prod.Lex.toLex_le_toLex.mp (hmax c hc)
    simp only at hle
    refine Prod.Lex.toLex_le_toLex.mpr ?_
    simp only [hcc, hbc, hct, hbt]
    exact hle.imp (fun h => by linarith) fun h => ⟨by linarith [h.1], h.2⟩

end Shown

/-- `acquired` in every run of an element. -/
theorem ozEle_acquired {junk : Fin n → Lc → ℚ} {s : OzSys n} {G : OzSys n → Ev (Fin n) ZCmd → Prop}
    (hs : (ozEleObj n junk).Reach G s) (r : Fin n) : AcqOk (s.st r).get.toOzTags := by
  have h : ∀ r, OzWf (s.st r).get.toOzTags ∧ AcqOk (s.st r).get.toOzTags := by
    refine hs.st_rule (I := fun _ c => OzWf c.get.toOzTags ∧ AcqOk c.get.toOzTags)
      (fun r => ?_) ?_ ?_
    · exact ⟨⟨List.nodup_nil, nofun, nofun, nofun⟩, ⟨nofun, nofun⟩, nofun⟩
    · intro r c o c₁ m h hp
      obtain ⟨rfl, -⟩ := Prod.mk.inj hp
      rw [ozPrepare_tags]; exact h
    · exact fun r c m h => ⟨h.1.apply c.zset m, h.2.apply h.1 c.zset m⟩
  exact (h r).2

/-! ## `innate` -/

/-- The message is the add of the tag. -/
def OzMsg.adds (t : Lc) : OzMsg → Bool
  | .add _ t' => t' = t
  | _ => false

/-- `innate` is the greatest of the live tags in `A`, the tags whose add was applied. A tag in `A`
is live if it was not removed. -/
structure InnateMax (A : Lc → Prop) (e : OzTags) : Prop where
  null : e.innate = none → ∀ t, A t → t ∈ e.rset
  max : ∀ i ∈ e.innate, A i ∧ ∀ t, A t → t ∉ e.rset → t.tagKey ≤ i.tagKey

/-- No live tag in `A` is above `innate`, which is NULL only if there is none. -/
structure InnateTop (A : Lc → Prop) (e : OzTags) : Prop where
  null : e.innate = none → ∀ t, A t → t ∈ e.rset
  top : ∀ i ∈ e.innate, ∀ t, A t → t ∉ e.rset → t.tagKey ≤ i.tagKey

section Innate

variable {A : Lc → Prop} {junk : Lc → ℚ} {e : OzTags} {v : ℚ}

theorem InnateMax.toTop (h : InnateMax A e) : InnateTop A e := ⟨h.null, fun i hi => (h.max i hi).2⟩

theorem InnateTop.toMax (h : InnateTop A e) (hA : ∀ i ∈ e.innate, A i) : InnateMax A e :=
  ⟨h.null, fun i hi => ⟨hA i hi, h.top i hi⟩⟩

theorem InnateTop.congr {A' : Lc → Prop} (h : InnateTop A e) (hA : ∀ t, A t ↔ A' t) :
    InnateTop A' e := by
  rwa [show A' = A from funext fun t => propext (hA t).symm]

/-- An add makes its tag `innate` or leaves `innate` as it is. -/
theorem updateInnateValue_innate {t i : Lc} (hi : i ∈ (e.updateInnateValue junk t v).1.innate) :
    i ∈ e.innate ∨ i = t := by
  simp only [OzTags.updateInnateValue] at hi
  split at hi
  · exact .inl hi
  · split at hi
    · exact .inr (Option.some.inj hi).symm
    · exact .inl hi

theorem InnateTop.updateInnateValue (h : InnateTop A e) (t : Lc) (v : ℚ) :
    InnateTop (fun t' => A t' ∨ t' = t) (e.updateInnateValue junk t v).1 := by
  by_cases hr : t ∈ e.rset
  · rw [updateInnateValue_of_mem hr]
    refine ⟨fun hn t' ht' => ?_, fun i hi t' ht' hr' => ?_⟩
    · rcases ht' with ht' | rfl
      · exact h.null hn t' ht'
      · exact hr
    · rcases ht' with ht' | rfl
      · exact h.top i hi t' ht' hr'
      · exact absurd hr hr'
  · simp only [OzTags.updateInnateValue, rsetGet_isSome, hr, decide_false, Bool.false_eq_true,
      if_false]
    split
    · rename_i hall
      refine ⟨fun hn => absurd hn (by simp), fun i hi t' ht' hr' => ?_⟩
      obtain rfl : t = i := Option.some.inj hi
      rcases ht' with ht' | rfl
      · cases hi : e.innate with
        | none => exact absurd (h.null hi t' ht') hr'
        | some i =>
          have hlt : i.tagKey < t.tagKey := by
            simpa [hi, lcCmpAsTag_lt_zero] using hall
          exact (h.top i hi t' ht' hr').trans hlt.le
      · exact le_rfl
    · rename_i hall
      refine ⟨fun hn => ?_, fun i hi t' ht' hr' => ?_⟩
      · have hn' : e.innate = none := hn
        simp [hn'] at hall
      · rcases ht' with ht' | rfl
        · exact h.top i hi t' ht' hr'
        · have hi' : e.innate = some i := hi
          simpa [hi', lcCmpAsTag_lt_zero] using hall

/-- An increment changes neither `innate` nor the removed tags. -/
theorem ozIncrease_innate (junk : Lc → ℚ) (v : ℚ) (ts : List Lc) :
    (ozIncrease junk v e ts).1.innate = e.innate ∧ (ozIncrease junk v e ts).1.rset = e.rset := by
  rw [ozIncrease_fst]
  induction ts generalizing e with
  | nil => exact ⟨rfl, rfl⟩
  | cons t ts ih =>
    have hstep : (e.updateAcquiredValue junk t v).1.innate = e.innate ∧
        (e.updateAcquiredValue junk t v).1.rset = e.rset := by
      simp only [OzTags.updateAcquiredValue]
      split
      · exact ⟨rfl, rfl⟩
      · split
        · exact ⟨rfl, rfl⟩
        · split <;> exact ⟨rfl, rfl⟩
    obtain ⟨hi, hr⟩ := ih (e := (e.updateAcquiredValue junk t v).1)
    exact ⟨hi.trans hstep.1, hr.trans hstep.2⟩

theorem mem_rset_iff {t : Lc} : t ∈ e.rset ↔ (ozTag e t).1 = true := by simp [ozTag]

theorem mem_tags_iff {t : Lc} : t ∈ e.aset.map OzAse.t ↔ (ozTag e t).2.isSome := by
  rw [ozTag, Option.isSome_iff_ne_none, ne_eq, OzTags.asetGet, find?_tagIs_none, not_not]

/-- The live tags and the removed tags after a remove. -/
theorem mem_removeTags (hw : OzWf e) (ts : List Lc) (t : Lc) :
    (t ∈ (ts.foldl OzTags.removeTag e).rset ↔ t ∈ ts ∨ t ∈ e.rset) ∧
      (t ∈ (ts.foldl OzTags.removeTag e).aset.map OzAse.t ↔ t ∉ ts ∧ t ∈ e.aset.map OzAse.t) := by
  rw [mem_rset_iff, mem_tags_iff, ozTag_remove hw, mem_rset_iff, mem_tags_iff]
  by_cases ht : t ∈ ts <;> simp [ht]

/-- The greatest live tag is `innate` after `resort`, if a pointer is NULL before. -/
theorem resort_innate (e : OzTags) (hs : (e.innate.isNone || e.acquired.isNone) = true) (t : Lc)
    (ht : t ∈ e.aset.map OzAse.t) : ∃ i ∈ e.resort.innate, t.tagKey ≤ i.tagKey := by
  have hn : ¬ (e.innate.isSome && e.acquired.isSome) = true := by
    simpa [imp_iff_not_or] using hs
  unfold OzTags.resort
  rw [if_neg hn, foldl_innate]
  refine foldl_pick_max Lc.tagKey (p := fun q a => lcCmpAsTag q a < 0) (fun q a => ?_) _ _ t
    (.inr ht)
  rw [decide_eq_true_eq, lcCmpAsTag_lt_zero]

/-- A remove puts no added live tag above `innate`. -/
theorem InnateTop.remove (junk : Lc → ℚ) (h : InnateTop A e) (hw : OzWf e)
    (hA : ∀ t, A t → t ∈ e.aset.map OzAse.t ∨ t ∈ e.rset) (z : Option ℚ) (ts : List Lc) :
    InnateTop A (ozApply junk e z (.rem ts)).1 := by
  simp only [ozApply]
  split
  · rename_i hs
    obtain ⟨-, hr⟩ := resort_aset (ts.foldl OzTags.removeTag e)
    -- An added tag that is not removed is live, so the election is among all of them.
    have hlive : ∀ t, A t → t ∉ (ts.foldl OzTags.removeTag e).rset →
        t ∈ (ts.foldl OzTags.removeTag e).aset.map OzAse.t := by
      intro t ht hr'
      obtain ⟨h₁, h₂⟩ := mem_removeTags hw ts t
      rw [h₁, not_or] at hr'
      exact h₂.mpr ⟨hr'.1, (hA t ht).resolve_right hr'.2⟩
    refine ⟨fun hnone t ht => ?_, fun i hi t ht hr' => ?_⟩
    · by_contra hr'
      rw [hr] at hr'
      obtain ⟨i, hi, -⟩ := resort_innate _ hs t (hlive t ht hr')
      rw [show (OzTags.resort _).innate = none from hnone] at hi
      cases hi
    · rw [hr] at hr'
      obtain ⟨i', hi', hle⟩ := resort_innate _ hs t (hlive t ht hr')
      obtain rfl : i' = i := Option.mem_unique hi' hi
      exact hle
  · rename_i hs
    simp only [Bool.or_eq_true, not_or, Option.isNone_iff_eq_none] at hs
    obtain ⟨hi, -⟩ := (removeTags_deref hw ts).1 (Option.isSome_iff_ne_none.mpr hs.1)
    refine ⟨fun hn => absurd hn hs.1, fun i hi' t ht hr => ?_⟩
    rw [hi] at hi'
    exact h.top i hi' t ht fun hr' => hr ((mem_removeTags hw ts t).1.mpr (.inr hr'))

/-- **No message puts an added live tag above `innate`.** -/
theorem InnateTop.apply (junk : Lc → ℚ) (h : InnateTop A e) (hw : OzWf e)
    (hA : ∀ t, A t → t ∈ e.aset.map OzAse.t ∨ t ∈ e.rset) (z : Option ℚ) (m : OzMsg) :
    InnateTop (fun t => A t ∨ m.adds t = true) (ozApply junk e z m).1 := by
  cases m with
  | add v t =>
    exact (h.updateInnateValue t v).congr fun t' => by simp [OzMsg.adds, eq_comm]
  | inc v ts =>
    obtain ⟨hi, hr⟩ := ozIncrease_innate junk v (e := e) ts
    show InnateTop _ (ozIncrease junk v e ts).1
    refine InnateTop.congr (A := A) ⟨fun hn t ht => ?_, fun i hi' => ?_⟩
      fun t => by simp [OzMsg.adds]
    · rw [hr]; exact h.null (hi ▸ hn) t ht
    · rw [hr]; exact h.top i (hi ▸ hi')
  | rem ts => exact (h.remove junk hw hA z ts).congr fun t => by simp [OzMsg.adds]

/-! ## What a remove elects -/

/-- A remove of the tags `ts` leaves `innate` or `acquired` NULL: it is NULL before or one of
them. -/
def OzTags.Reelects (e : OzTags) (ts : List Lc) : Prop :=
  (∀ i ∈ e.innate, i ∈ ts) ∨ ∀ q ∈ e.acquired, q ∈ ts

/-- `t` is the greatest live tag that is none of `ts`. -/
def OzTags.Survives (e : OzTags) (ts : List Lc) (t : Lc) : Prop :=
  (t ∈ e.aset.map OzAse.t ∧ t ∉ ts) ∧
    ∀ t' ∈ e.aset.map OzAse.t, t' ∉ ts → lcCmpAsTag t' t ≤ 0

theorem removeTag_pointers (hw : OzWf e) (t : Lc) :
    (e.removeTag t).innate = e.innate.filter (· ≠ t) ∧
      (e.removeTag t).acquired = e.acquired.filter (· ≠ t) := by
  -- A pointer points to a live tag.
  have hptr : ∀ p : Option Lc, (∀ i ∈ p, i ∈ e.aset.map OzAse.t) →
      (if p = some t ∧ t ∈ e.aset.map OzAse.t then none else p) = p.filter (· ≠ t) := by
    intro p hp
    cases p with
    | none => simp
    | some i =>
      by_cases hi : i = t
      · subst hi
        simp [hp i rfl, Option.filter]
      · simp [hi, Option.filter]
  by_cases hr : t ∈ e.rset
  · have hlive : t ∉ e.aset.map OzAse.t := fun ht => hw.live t ht hr
    have hi := hptr e.innate hw.innate
    have hq := hptr e.acquired hw.acquired
    simp only [hlive, and_false, if_false] at hi hq
    rw [removeTag_of_mem hr]
    exact ⟨hi, hq⟩
  · rw [removeTag_eq hr]
    exact ⟨hptr _ hw.innate, hptr _ hw.acquired⟩

theorem removeTags_pointers (hw : OzWf e) (ts : List Lc) :
    (ts.foldl OzTags.removeTag e).innate = e.innate.filter (· ∉ ts) ∧
      (ts.foldl OzTags.removeTag e).acquired = e.acquired.filter (· ∉ ts) := by
  induction ts generalizing e with
  | nil =>
    have hall : ∀ p : Option Lc, p = p.filter (· ∉ ([] : List Lc)) := by
      intro p
      cases p <;> simp [Option.filter]
    exact ⟨hall _, hall _⟩
  | cons t ts ih =>
    obtain ⟨hi, hq⟩ := ih (hw.removeTag t)
    obtain ⟨hi₁, hq₁⟩ := removeTag_pointers hw t
    rw [List.foldl_cons, hi, hq, hi₁, hq₁, Option.filter_filter, Option.filter_filter]
    constructor
    all_goals
      congr 1
      funext i
      simp

theorem reelects_iff (hw : OzWf e) (ts : List Lc) :
    e.Reelects ts ↔ ((ts.foldl OzTags.removeTag e).innate.isNone ||
      (ts.foldl OzTags.removeTag e).acquired.isNone) = true := by
  obtain ⟨hi, hq⟩ := removeTags_pointers hw ts
  simp only [OzTags.Reelects, hi, hq, Bool.or_eq_true, Option.isNone_iff_eq_none,
    Option.filter_eq_none_iff, decide_eq_true_eq, not_not, Option.mem_def]

/-- **What `innate` is after a remove**: the greatest tag that is left where `resort` elects, and
else what it was. -/
theorem ozApply_rem_innate (junk : Lc → ℚ) (hw : OzWf e) (z : Option ℚ) {ts : List Lc} {t : Lc}
    (ht : (ozApply junk e z (.rem ts)).1.innate = some t) :
    (e.Reelects ts ∧ e.Survives ts t) ∨ e.innate = some t := by
  simp only [ozApply] at ht
  split at ht
  · rename_i hs
    have hw' := hw.removeTags ts
    have hmem := hw'.resort.innate t ht
    rw [(resort_aset _).1, (mem_removeTags hw ts t).2] at hmem
    refine .inl ⟨(reelects_iff hw ts).mpr hs, ⟨hmem.2, hmem.1⟩, fun t' ht' hts => ?_⟩
    obtain ⟨i, hi, hle⟩ := resort_innate _ hs t' ((mem_removeTags hw ts t').2.mpr ⟨hts, ht'⟩)
    obtain rfl : t = i := Option.some.inj (ht.symm.trans hi)
    exact lcCmpAsTag_le_zero.mpr hle
  · rw [(removeTags_pointers hw ts).1, Option.filter_eq_some_iff] at ht
    exact .inr ht.1

/-- The tag that is left as the greatest is the one that the code elects: `Survives` reads the
effect phase off the state before it. -/
theorem OzTags.Survives.elected (junk : Lc → ℚ) (hw : OzWf e) (z : Option ℚ) {ts : List Lc} {t : Lc}
    (hr : e.Reelects ts) (h : e.Survives ts t) :
    (ozApply junk e z (.rem ts)).1.innate = some t := by
  have hs := (reelects_iff hw ts).mp hr
  obtain ⟨i, hi, hle⟩ := resort_innate _ hs t ((mem_removeTags hw ts t).2.mpr h.1.symm)
  have hinnate : (ozApply junk e z (.rem ts)).1.innate = some i := by
    simp only [ozApply, hs, if_true]
    exact hi
  have hmem := (hw.removeTags ts).resort.innate i hi
  rw [(resort_aset _).1, (mem_removeTags hw ts i).2] at hmem
  have hge := lcCmpAsTag_le_zero.mp (h.2 i hmem.2 hmem.1)
  rw [hinnate, Lc.tagKey_inj.mp (le_antisymm hle hge)]

/-- **Every message keeps `innate` at the greatest added live tag**, a remove if `resort` elects an
added one. -/
theorem InnateMax.apply (junk : Lc → ℚ) (h : InnateMax A e) (hw : OzWf e)
    (hA : ∀ t, A t → t ∈ e.aset.map OzAse.t ∨ t ∈ e.rset) (z : Option ℚ) (m : OzMsg)
    (hm : ∀ ts, m = .rem ts → ∀ i ∈ (ozApply junk e z m).1.innate, A i) :
    InnateMax (fun t => A t ∨ m.adds t = true) (ozApply junk e z m).1 := by
  refine (h.toTop.apply junk hw hA z m).toMax fun i hi => ?_
  cases m with
  | add v t =>
    rcases updateInnateValue_innate hi with hi | rfl
    · exact .inl (h.max i hi).1
    · exact .inr (by simp [OzMsg.adds])
  | inc v ts => exact .inl (h.max i ((ozIncrease_innate junk v (e := e) ts).1 ▸ hi)).1
  | rem ts => exact .inl (hm ts rfl i hi)

/-- A remove of all live tags leaves none. -/
theorem ozApply_rem_all (junk : Lc → ℚ) (hw : OzWf e) (z : Option ℚ) :
    (ozApply junk e z (.rem (e.aset.map OzAse.t))).1.aset = [] := by
  have hnil : ((e.aset.map OzAse.t).foldl OzTags.removeTag e).aset = [] := by
    rw [← List.map_eq_nil_iff (f := OzAse.t), List.eq_nil_iff_forall_not_mem]
    intro t ht
    obtain ⟨hn, hm⟩ := (mem_removeTags hw _ t).2.mp ht
    exact hn hm
  simp only [ozApply]
  split
  · exact (resort_aset _).1.trans hnil
  · exact hnil

end Innate

/-! ## Runs -/

section Element

variable {junk : Fin n → Lc → ℚ} {s : OzSys n} {G : OzSys n → Ev (Fin n) ZCmd → Prop}

/-- Replica `r` has applied the add of tag `t`. -/
def OzAdded (s : OzSys n) (r : Fin n) (t : Lc) : Prop := ∃ v, received s r (.add v t)

/-- An added tag is live or removed. -/
theorem OzAdded.live (hs : (ozEleObj n junk).Reach G s) {r : Fin n} {t : Lc} (h : OzAdded s r t) :
    t ∈ (s.st r).get.aset.map OzAse.t ∨ t ∈ (s.st r).get.rset := by
  obtain ⟨v, i, hi, o, hl⟩ := h
  by_cases hr : t ∈ (s.st r).get.rset
  · exact .inr hr
  · exact .inl (((ozEle_closed hs r).aset t).mpr
      ⟨⟨i, hi, .add v t, by simp [Sys.msg, hl], by simp [OzMsg.names]⟩, hr⟩)

/-- A test for an added tag. -/
theorem OzAdded.of_adds {r : Fin n} {t : Lc}
    (h : ∃ j ∈ s.recv r, (s.msg j).any (OzMsg.adds t) = true) : OzAdded s r t := by
  obtain ⟨j, hj, hany⟩ := h
  cases hm : s.msg j with
  | none => simp [hm] at hany
  | some m =>
    obtain ⟨⟨o, m'⟩, hl, rfl⟩ := Option.map_eq_some_iff.mp hm
    rw [hm, Option.any_some] at hany
    cases m' with
    | add v t' =>
      obtain rfl : t' = t := by simpa [OzMsg.adds] using hany
      exact ⟨v, j, hj, o, hl⟩
    | inc v ts => cases hany
    | rem ts => cases hany

/-- No remove is received that leaves a pointer NULL, and as the greatest live tag one whose add the
replica has not applied. -/
def ozElected (s : OzSys n) : Ev (Fin n) ZCmd → Prop
  | .op _ _ _ => True
  | .recv r i => ∀ o ts t, s.log i = some (o, .rem ts) → (s.st r).get.Reelects ts →
      (s.st r).get.Survives ts t → OzAdded s r t

/-- A relation of an element to the tags whose add its replica has applied holds in every run if
every message keeps it. -/
theorem ozAdded_rule {J : (Lc → Prop) → OzTags → Prop} (hs : (ozEleObj n junk).Reach G s)
    (new : J (fun _ => False) ozTagsNew)
    (issue : ∀ s r o i m z, (ozEleObj n junk).Reach G s → G s (.op r o i) →
      (ozPrepare r (s.st r) o).2.toOption = some m → J (OzAdded s r) (s.st r).get.toOzTags →
      J (fun t => OzAdded s r t ∨ m.adds t = true) (ozApply (junk r) (s.st r).get.toOzTags z m).1)
    (deliver : ∀ s r i o m, (ozEleObj n junk).Reach G s → G s (.recv r i) →
      s.log i = some (o, m) → J (OzAdded s r) (s.st r).get.toOzTags →
      J (fun t => OzAdded s r t ∨ m.adds t = true)
        (ozApply (junk r) (s.st r).get.toOzTags (s.st r).zset m).1) :
    ∀ r, J (OzAdded s r) (s.st r).get.toOzTags := by
  have hadds : ∀ {m t}, (∃ v, .add v t = m) ↔ OzMsg.adds t m = true := by
    intro m t
    cases m <;> simp [OzMsg.adds, eq_comm]
  refine hs.rule (I := fun s => ∀ r, J (OzAdded s r) (s.st r).get.toOzTags) ?_ ?_ ?_ ?_
  · intro r
    have hnone : OzAdded (ozEleObj n junk).start r = fun _ => False := by
      funext t
      simp [OzAdded, received, Obj.start]
    rw [hnone]
    exact new
  · intro s r o i s₁ _ ih _ hp q
    by_cases hq : q = r
    · subst hq
      obtain ⟨rfl, -⟩ := Prod.mk.inj hp
      rw [Obj.reject_st_self, ozPrepare_tags]
      exact ih q
    · rw [Obj.reject_st_ne hq]
      exact ih q
  · intro s r o i s₁ m hs ih hg hp hl q
    have hA : OzAdded ((ozEleObj n junk).issue s r i s₁ m) q =
        fun t => OzAdded s q t ∨ (q = r ∧ OzMsg.adds t m = true) := by
      funext t
      simp only [OzAdded, received_issue hs.wf hl, exists_or, exists_and_left, hadds]
    rw [hA]
    by_cases hq : q = r
    · subst hq
      obtain ⟨rfl, hm⟩ := Prod.mk.inj hp
      have hap := issue s q o i m (ozPrepare q (s.st q) o).1.zset hs hg hm (ih q)
      rw [Obj.issue_st_self]
      rw [← ozPrepare_tags q (s.st q) o] at hap
      simp only [true_and]
      exact hap
    · rw [Obj.issue_st_ne hq]
      simpa [hq] using ih q
  · intro s r i o m hs ih hg hl hi q
    have hA : OzAdded ((ozEleObj n junk).deliver s r i m) q =
        fun t => OzAdded s q t ∨ (q = r ∧ OzMsg.adds t m = true) := by
      funext t
      simp only [OzAdded, received_deliver hl, exists_or, exists_and_left, hadds]
    rw [hA]
    by_cases hq : q = r
    · subst hq
      rw [Obj.deliver_st_self]
      simp only [true_and]
      exact deliver s q i o m hs hg hl (ih q)
    · rw [Obj.deliver_st_ne hq]
      simpa [hq] using ih q

/-- `innate` in every run of an element. -/
theorem ozEle_innateTop (hs : (ozEleObj n junk).Reach G s) :
    ∀ r, InnateTop (OzAdded s r) (s.st r).get.toOzTags := by
  refine ozAdded_rule hs ⟨fun _ _ h => h.elim, nofun⟩ ?_ ?_
  · intro s r o i m z hs _ _ h
    exact h.apply (junk r) (ozEle_wf hs r) (fun t => OzAdded.live hs) z m
  · intro s r i o m hs _ _ h
    exact h.apply (junk r) (ozEle_wf hs r) (fun t => OzAdded.live hs) _ m

/-- `innate` in every run of an element that satisfies the guard. -/
theorem ozEle_innate (hs : (ozEleObj n junk).Reach ozElected s) :
    ∀ r, InnateMax (OzAdded s r) (s.st r).get.toOzTags := by
  refine ozAdded_rule hs ⟨fun _ _ h => h.elim, nofun⟩ ?_ ?_
  · intro s r o i m z hs _ hm h
    have hw := ozEle_wf hs r
    refine h.apply (junk r) hw (fun t => OzAdded.live hs) z m ?_
    -- A local remove names all live tags and leaves none.
    rintro ts rfl t ht
    rcases ozPrepare_some hm with ⟨v, he, -⟩ | ⟨-, ⟨v, he⟩ | he⟩
    · cases he
    · cases he
    · obtain rfl : ts = (s.st r).get.aset.map OzAse.t := by simpa using he
      have hin : t ∈ (ozApply (junk r) _ _ _).1.aset.map OzAse.t := (hw.apply _ _).innate t ht
      rw [ozApply_rem_all _ hw] at hin
      cases hin
  · intro s r i o m hs hg hl h
    refine h.apply (junk r) (ozEle_wf hs r) (fun t => OzAdded.live hs) _ m ?_
    rintro ts rfl t ht
    rcases ozApply_rem_innate (junk r) (ozEle_wf hs r) _ ht with ⟨hre, hsurv⟩ | hold
    · exact hg o ts t hl hre hsurv
    · exact (h.max t hold).1

/-- An entry without a count has no increment. -/
theorem OzClosed.inc_eq_zero {r : Fin n} {e : OzTags} (h : OzClosed s r e) {a : OzAse}
    (ha : a ∈ e.aset) (h₀ : a.count = 0) : a.inc = 0 := by
  rw [h.count a ha, Finset.sum_eq_zero_iff_of_nonneg] at h₀
  · rw [h.inc a ha]
    refine Finset.sum_eq_zero fun i hi => ?_
    have := h₀ i hi
    cases hm : s.msg i with
    | none => rfl
    | some m => simpa [hm] using this
  · intro i _
    cases s.msg i <;> simp

/-- `innate` is live and added, and its entry has the value of the add. -/
theorem InnateMax.value {r : Fin n} (hs : (ozEleObj n junk).Reach G s)
    (h : InnateMax (OzAdded s r) (s.st r).get.toOzTags) {t : Lc}
    (ht : (s.st r).get.innate = some t) :
    ∃ a v, (s.st r).get.asetGet t = some a ∧ received s r (.add v t) ∧ a.x = v := by
  obtain ⟨v, i, hi, o, hl⟩ := (h.max t ht).1
  have hlive := (ozEle_wf hs r).innate t ht
  obtain ⟨a, ha⟩ := Option.isSome_iff_exists.mp (mem_tags_iff.mp hlive)
  have hga := find?_tagIs ha
  refine ⟨a, v, ha, ⟨i, hi, o, hl⟩, (ozEle_closed hs r).x a hga.2 i hi v ?_⟩
  simp [Sys.msg, hl, hga.1]

/-- Replicas that applied the same messages compute the same score. -/
theorem ozEle_score_agree (hs : (ozEleObj n junk).Reach G s) {r q : Fin n}
    (hr : InnateMax (OzAdded s r) (s.st r).get.toOzTags)
    (hq : InnateMax (OzAdded s q) (s.st q).get.toOzTags) (hD : s.recv r = s.recv q) :
    (s.st r).get.score = (s.st q).get.score := by
  obtain ⟨hrset, htags, hent, -⟩ := (ozEle_closed hs r).agree (ozEle_closed hs q) hD
  have hA : OzAdded s r = OzAdded s q := by funext t; simp only [OzAdded, received, hD]
  have hlive : ∀ q t, (s.st q).get.innate = some t → t ∉ (s.st q).get.rset := fun q t ht =>
    (ozEle_wf hs q).live t ((ozEle_wf hs q).innate t ht)
  -- The greatest added live tag is one.
  have hinnate : (s.st r).get.innate = (s.st q).get.innate := by
    rw [hA] at hr
    cases hir : (s.st r).get.innate with
    | none =>
      cases hiq : (s.st q).get.innate with
      | none => rfl
      | some t =>
        exact absurd ((hrset t).mp (hr.null hir t (hq.max t hiq).1)) (hlive q t hiq)
    | some t =>
      cases hiq : (s.st q).get.innate with
      | none =>
        exact absurd ((hrset t).mpr (hq.null hiq t (hr.max t hir).1)) (hlive r t hir)
      | some t' =>
        have hle := (hq.max t' hiq).2 t (hr.max t hir).1 (mt (hrset t).mpr (hlive r t hir))
        have hge := (hr.max t hir).2 t' (hq.max t' hiq).1 (mt (hrset t').mp (hlive q t' hiq))
        rw [Lc.tagKey_inj.mp (le_antisymm hle hge)]
  have hx : ((s.st r).get.deref (s.st r).get.innate).map OzAse.x =
      ((s.st q).get.deref (s.st q).get.innate).map OzAse.x := by
    cases hir : (s.st r).get.innate with
    | none => rw [← hinnate, hir]; rfl
    | some t =>
      obtain ⟨a, v, ha, ⟨i, hi, o, hl⟩, rfl⟩ := hr.value hs hir
      have hiq := hinnate ▸ hir
      obtain ⟨b, w, hb, -, -⟩ := hq.value hs hiq
      have hbm := find?_tagIs hb
      have hbx := (ozEle_closed hs q).x b hbm.2 i (hD ▸ hi) a.x (by simp [Sys.msg, hl, hbm.1])
      simp [hiq, OzTags.deref, ha, hb, hbx]
  have hinc := AcqOk.shownInc_add (d := 0) (ozEle_acquired hs r) (ozEle_acquired hs q)
    (ozEle_wf hs r) (ozEle_wf hs q) (fun a => (ozEle_closed hs r).inc_eq_zero) (fun _ => rfl)
    (fun t => (htags t).symm) fun a ha a' ha' ht => by
      obtain ⟨hi, hc⟩ := hent a ha a' ha' ht.symm
      simp [hi, hc]
  rw [add_zero] at hinc
  simp only [OzTags.score, hx]
  exact congrArg _ hinc.symm

end Element

/-! ## The queue -/

section Queue

variable {junk : Sds → Fin n → Lc → ℚ}

/-- The guard of the runs of the queue: no `ozrem` is received that finds `innate` or `acquired` of
the element NULL or names it, where the greatest live tag that it does not name is one whose `ozadd`
the replica has not applied. -/
def ozInnateGuard (junk : Sds → Fin n → Lc → ℚ) (s : Sys (Fin n) (Sds → OzCell) (Sds × OzMsg)) :
    Ev (Fin n) (Sds × ZCmd) → Prop
  | .op _ _ _ => True
  | .recv r i => ∀ o k ts t, s.log i = some (o, (k, .rem ts)) → (s.st r k).get.Reelects ts →
      (s.st r k).get.Survives ts t → OzAdded (ozOn junk s k) r t

/-- **The source of the initial value**: in every run of the queue that satisfies the guard,
`innate` is NULL iff no live tag has had its `ozadd` applied, and otherwise the greatest live tag
that has, whose entry holds the value of that `ozadd`; replicas that applied the same messages
compute the same `SCORE`. -/
theorem oz_innate {s : Sys (Fin n) (Sds → OzCell) (Sds × OzMsg)}
    (hs : (ozObj n junk).Reach (ozInnateGuard junk) s) (k : Sds) :
    (∀ r, let e := (s.st r k).get.toOzTags
      (e.innate = none ↔ ∀ t ∈ e.aset.map OzAse.t, ¬ OzAdded (ozOn junk s k) r t) ∧
      ∀ t, e.innate = some t → t ∈ e.aset.map OzAse.t ∧
        (∀ t' ∈ e.aset.map OzAse.t, OzAdded (ozOn junk s k) r t' → lcCmpAsTag t' t ≤ 0) ∧
        ∃ a v, e.asetGet t = some a ∧ received (ozOn junk s k) r (.add v t) ∧ a.x = v) ∧
    ∀ r q, (ozOn junk s k).recv r = (ozOn junk s k).recv q →
      (s.st r k).get.score = (s.st q k).get.score := by
  have hk : (ozEleObj n (junk k)).Reach ozElected (ozOn junk s k) := by
    refine ((keyedView _ k).reach (H := ozElected) (fun _ _ _ _ _ => trivial)
      (fun _ _ _ _ => trivial) ?_ hs).1
    intro s r i m _ hg _ o ts t hl
    obtain ⟨⟨k', m'⟩, hl', hm'⟩ := View.sys_log_some _ hl
    simp only [keyedView, Option.ite_none_right_eq_some, Option.some.injEq] at hm'
    obtain ⟨rfl, rfl⟩ := hm'
    exact hg o k' ts t hl'
  have hI := ozEle_innate hk
  refine ⟨fun r => ?_, fun r q hD => ozEle_score_agree hk (hI r) (hI q) hD⟩
  have hw : OzWf (s.st r k).get.toOzTags := ozEle_wf hk r
  have hmax : InnateMax (OzAdded (ozOn junk s k) r) (s.st r k).get.toOzTags := hI r
  refine ⟨⟨fun hn t ht hadd => hw.live t ht (hmax.null hn t hadd), fun hno => ?_⟩, fun t ht => ?_⟩
  · by_contra hne
    obtain ⟨t, ht⟩ := Option.ne_none_iff_exists'.mp hne
    exact hno t (hw.innate t ht) (hmax.max t ht).1
  · refine ⟨hw.innate t ht, fun t' ht' hadd => ?_, InnateMax.value hk (hI r) ht⟩
    exact lcCmpAsTag_le_zero.mpr ((hmax.max t ht).2 t' hadd (hw.live t' ht'))

/-- A test for the guard: the tags that a remove leaves have been added. -/
def ozInnateGuardOk (junk : Sds → Fin n → Lc → ℚ) (s : Sys (Fin n) (Sds → OzCell) (Sds × OzMsg)) :
    Ev (Fin n) (Sds × ZCmd) → Bool
  | .op _ _ _ => true
  | .recv r i =>
    match s.log i with
    | some (_, (k, .rem ts)) =>
      ((s.st r k).get.aset.map OzAse.t).all fun t => decide (t ∈ ts) ||
        decide (∃ j ∈ (ozOn junk s k).recv r, ((ozOn junk s k).msg j).any (OzMsg.adds t))
    | _ => true

theorem ozInnateGuard_of_ok (junk : Sds → Fin n → Lc → ℚ)
    (s : Sys (Fin n) (Sds → OzCell) (Sds × OzMsg)) (e : Ev (Fin n) (Sds × ZCmd))
    (h : ozInnateGuardOk junk s e = true) : ozInnateGuard junk s e := by
  cases e with
  | op r o i => trivial
  | recv r i =>
    intro o k ts t hl _ hsurv
    simp only [ozInnateGuardOk, hl, List.all_eq_true] at h
    have hadded := h t hsurv.1.1
    rw [Bool.or_eq_true, decide_eq_true_eq, decide_eq_true_eq] at hadded
    exact .of_adds (hadded.resolve_left hsurv.1.2)

/-- The hypothesis holds of the run in which a tag survives a remove. -/
theorem oz_innate_demo :
    let s := (ozObj 2 fun _ _ _ => 0).runOf ozDemo
    (s.st 0 ['a']).get.score = (s.st 1 ['a']).get.score :=
  (oz_innate (Obj.reach_runOf (ozInnateGuard_of_ok fun _ _ _ => 0) ozDemo (by decide +kernel))
    ['a']).2 0 1 (by decide +kernel)

/-- Replicas 0 and 1 add the element, replica 2 increments the tag of replica 1, and replica 0
removes its own tag. Replica 3 has not received the add of replica 1. -/
def ozUnaddedRun : List (Ev (Fin 4) (Sds × ZCmd)) :=
  let a : Sds := ['a']
  [.op 0 (a, .zadd 4 (some 5)) 0, .op 1 (a, .zadd 4 (some 7)) 1, .recv 2 1,
    .op 2 (a, .zincrby 4 (some 2)) 2, .op 0 (a, .zrem 3) 3, .recv 3 0, .recv 3 2, .recv 3 3]

/-- The links are FIFO, and `innate` of replica 3 is a tag whose add it has not received. The score
is computed from the memory of a new entry. -/
theorem oz_innate_unadded :
    let junk : Sds → Fin 4 → Lc → ℚ := fun _ _ _ => 3
    let s := (ozObj 4 junk).runOf ozUnaddedRun
    (ozObj 4 junk).Reach fifo s ∧ (s.st 3 ['a']).get.innate = some ⟨0, 1⟩ ∧
      ¬ OzAdded (ozOn junk s ['a']) 3 ⟨0, 1⟩ ∧ (s.st 3 ['a']).get.score = 3 + 2 := by
  refine ⟨Obj.reach_runOf Obj.fifo_of_fifoOk ozUnaddedRun (by decide +kernel),
    by decide +kernel, ?_, by decide +kernel⟩
  rintro ⟨v, j, hj, o, hl⟩
  have hno : ∀ j ∈
      (ozOn (fun _ _ _ => 3) ((ozObj 4 fun _ _ _ => 3).runOf ozUnaddedRun) ['a']).recv 3,
      ((ozOn (fun _ _ _ => 3) ((ozObj 4 fun _ _ _ => 3).runOf ozUnaddedRun) ['a']).msg j).all
        (fun m => !OzMsg.adds ⟨0, 1⟩ m) = true := by
    decide +kernel
  have := hno j hj
  simp [Sys.msg, hl, OzMsg.adds] at this

end Queue

end CrdtRedis
