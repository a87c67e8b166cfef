import CrdtRedis.OZset.Model

/-!
# Convergence of the tag sets of the Add-Win queue

* `tagFold_closed`: what an element knows of one tag after a list of messages (`TagClosed`): whether
  a remove named it, the sum of the increments that named it, the value of its add.
* `OzLog`: no two adds have the same tag, and no message names a tag twice.
* `oz_convergence`: in every run the tag sets of an element are a function of the messages applied
  (`OzClosed`).
-/

namespace CrdtRedis

open Broadcast

variable {n : ℕ}

/-! ## One tag -/

/-- The message is an add or an increment that names the tag. -/
def OzMsg.names (t : Lc) : OzMsg → Bool
  | .add _ t' => t' = t
  | .inc _ ts => t ∈ ts
  | .rem _ => false

/-- The message is a remove that names the tag. -/
def OzMsg.removes (t : Lc) : OzMsg → Bool
  | .rem ts => t ∈ ts
  | _ => false

/-- The increment of the tag by the message. -/
def OzMsg.incOn (t : Lc) : OzMsg → ℚ
  | .inc v ts => if t ∈ ts then v else 0
  | _ => 0

/-- What one tag knows of the messages `L`: whether it was removed, and its entry. -/
structure TagClosed (t : Lc) (L : List OzMsg) (p : Bool × Option OzAse) : Prop where
  removed : p.1 = true ↔ ∃ m ∈ L, m.removes t = true
  entry : p.2.isSome ↔ (∃ m ∈ L, m.names t = true) ∧ p.1 = false
  inc : ∀ a ∈ p.2, a.inc = (L.map (OzMsg.incOn t)).sum
  count : ∀ a ∈ p.2, a.count = (L.map fun m => |m.incOn t|).sum
  x : ∀ a ∈ p.2, ∀ v, .add v t ∈ L → a.x = v

section Tag

variable {junk : Lc → ℚ} {t : Lc} {L : List OzMsg} {p : Bool × Option OzAse} {m : OzMsg}

/-- A message that is not about the tag. -/
theorem TagClosed.skip (h : TagClosed t L p) (hn : m.names t = false) (hr : m.removes t = false) :
    TagClosed t (L ++ [m]) p := by
  have hinc : m.incOn t = 0 := by
    cases m <;> simp_all [OzMsg.incOn, OzMsg.names]
  refine ⟨?_, ?_, fun a ha => ?_, fun a ha => ?_, fun a ha v hv => ?_⟩
  · rw [h.removed]; simp [or_and_right, exists_or, hr]
  · rw [h.entry]; simp [or_and_right, exists_or, hn]
  · rw [h.inc a ha]; simp [hinc]
  · rw [h.count a ha]; simp [hinc]
  · refine h.x a ha v ?_
    rcases List.mem_append.mp hv with hv | hv
    · exact hv
    · rw [← List.mem_singleton.mp hv] at hn
      simp [OzMsg.names] at hn

/-- A message that removes the tag. -/
theorem TagClosed.remove (hr : m.removes t = true) : TagClosed t (L ++ [m]) (true, none) :=
  ⟨by simpa using .inr hr, by simp, by simp, by simp, by simp⟩

/-- A message that changes the entry of the tag by `f`. -/
theorem TagClosed.upsert {f : OzAse → OzAse} (h : TagClosed t L p) (hn : m.names t = true)
    (hinc : ∀ a, (f a).inc = a.inc + m.incOn t) (hcount : ∀ a, (f a).count = a.count + |m.incOn t|)
    (hx : ∀ a : OzAse, (∀ v, .add v t ∈ L → a.x = v) → ∀ v, .add v t ∈ L ++ [m] → (f a).x = v) :
    TagClosed t (L ++ [m]) (tagUpsert junk t f p) := by
  have hr : m.removes t = false := by
    cases m <;> simp_all [OzMsg.removes, OzMsg.names]
  unfold tagUpsert
  split
  · rename_i hp
    have hnone : p.2 = none := by
      rw [← Option.not_isSome_iff_eq_none, h.entry, hp]; simp
    refine ⟨?_, by simp [hnone, hp], by simp [hnone], by simp [hnone], by simp [hnone]⟩
    rw [h.removed]; simp [or_and_right, exists_or, hr]
  · rename_i hp
    -- The entry before: a new one counts no message.
    have hold : (p.2.getD (addAse junk t)).inc = (L.map (OzMsg.incOn t)).sum ∧
        (p.2.getD (addAse junk t)).count = (L.map fun m => |m.incOn t|).sum ∧
        ∀ v, .add v t ∈ L → (p.2.getD (addAse junk t)).x = v := by
      cases hp2 : p.2 with
      | some a => exact ⟨h.inc a hp2, h.count a hp2, h.x a hp2⟩
      | none =>
        have hno : ∀ m ∈ L, m.names t = false := by
          intro m hm
          by_contra hn
          have := h.entry.mpr ⟨⟨m, hm, by simpa using hn⟩, by simpa using hp⟩
          simp [hp2] at this
        have hz : ∀ m ∈ L, m.incOn t = 0 := by
          intro m hm
          have := hno m hm
          cases m <;> simp_all [OzMsg.incOn, OzMsg.names]
        refine ⟨?_, ?_, fun v hv => ?_⟩
        · rw [List.map_congr_left hz]; simp [addAse]
        · rw [List.map_congr_left fun m hm => by rw [hz m hm, abs_zero]]; simp [addAse]
        · have := hno _ hv
          simp [OzMsg.names] at this
    obtain ⟨h₁, h₂, h₃⟩ := hold
    refine ⟨?_, by simpa using .inr hn, ?_, ?_, ?_⟩
    · have := h.removed
      simp only [hp] at this
      simpa [or_and_right, exists_or, hr] using this
    · rintro a ⟨⟩; rw [hinc, h₁]; simp
    · rintro a ⟨⟩; rw [hcount, h₂]; simp
    · rintro a ⟨⟩; exact hx _ h₃

/-- The closed form is kept by every message; the adds of the tag have one value. -/
theorem TagClosed.step (h : TagClosed t L p)
    (hx : ∀ v v', .add v t ∈ L ++ [m] → .add v' t ∈ L ++ [m] → v = v') :
    TagClosed t (L ++ [m]) (tagStep junk t p m) := by
  cases m with
  | add v t' =>
    simp only [tagStep]
    split
    · rename_i ht
      subst ht
      refine h.upsert (by simp [OzMsg.names]) (by simp [OzMsg.incOn]) (by simp [OzMsg.incOn]) ?_
      exact fun a _ v' hv' => hx v v' (by simp) hv'
    · rename_i ht
      exact h.skip (by simpa [OzMsg.names] using Ne.symm ht) rfl
  | inc v ts =>
    simp only [tagStep]
    split
    · rename_i ht
      refine h.upsert (by simpa [OzMsg.names] using ht)
        (fun a => by simp [OzTags.increase, OzMsg.incOn, ht]) (fun a => ?_) ?_
      · simp only [OzTags.increase, OzMsg.incOn, if_pos ht]
        split
        · rename_i hv; rw [abs_of_pos hv]
        · rename_i hv; rw [abs_of_nonpos (not_lt.mp hv)]
      · exact fun a ha v' hv' => ha v' (by simpa using hv')
    · rename_i ht
      exact h.skip (by simpa [OzMsg.names] using ht) rfl
  | rem ts =>
    simp only [tagStep]
    split
    · rename_i ht
      exact .remove (by simpa [OzMsg.removes] using ht)
    · rename_i ht
      exact h.skip rfl (by simpa [OzMsg.removes] using ht)

/-- What an element knows of one tag after the messages `L`. -/
theorem tagFold_closed (hx : ∀ v v', .add v t ∈ L → .add v' t ∈ L → v = v') :
    TagClosed t L (L.foldl (tagStep junk t) (false, none)) := by
  induction L using List.reverseRecOn with
  | nil => exact ⟨by simp, by simp, by simp, by simp, by simp⟩
  | append_singleton L m ih =>
    rw [List.foldl_append]
    exact (ih fun v v' hv hv' => hx v v' (by simp [hv]) (by simp [hv'])).step hx

end Tag

/-! ## One element -/

/-- The effect of a message on the tags, without the sorted set. -/
def ozStep (junk : Lc → ℚ) (e : OzTags) (m : OzMsg) : OzTags := (ozApply junk e none m).1

theorem ozApply_fst (junk : Lc → ℚ) (e : OzTags) (z : Option ℚ) (m : OzMsg) :
    (ozApply junk e z m).1 = ozStep junk e m := by
  cases m with
  | add v t => rfl
  | inc v ts => rfl
  | rem ts => simp only [ozStep, ozApply]; split <;> rfl

/-- After a list of messages each of which names a tag once, each tag has seen all of them. -/
theorem ozFold_tag (junk : Lc → ℚ) {L : List OzMsg} (hL : ∀ m ∈ L, m.NodupTags) :
    OzWf (L.foldl (ozStep junk) ozTagsNew) ∧
      ∀ t, ozTag (L.foldl (ozStep junk) ozTagsNew) t = L.foldl (tagStep junk t) (false, none) := by
  induction L using List.reverseRecOn with
  | nil => exact ⟨⟨List.nodup_nil, by simp [ozTagsNew], by simp [ozTagsNew], by simp [ozTagsNew]⟩,
      fun t => rfl⟩
  | append_singleton L m ih =>
    obtain ⟨hwf, htag⟩ := ih fun m hm => hL m (by simp [hm])
    simp only [List.foldl_append, List.foldl_cons, List.foldl_nil, ← htag]
    exact ⟨hwf.apply none m, fun t => ozTag_apply hwf none (hL m (by simp)) t⟩

/-- The states of one element of the queue. -/
abbrev OzSys (n : ℕ) := Sys (Fin n) OzCell OzMsg

section Element

variable {junk : Fin n → Lc → ℚ} {s : OzSys n} {G : OzSys n → Ev (Fin n) ZCmd → Prop}

theorem ozPrepare_tags (r : Fin n) (c : OzCell) (o : ZCmd) :
    (ozPrepare r c o).1.get.toOzTags = c.get.toOzTags := by
  cases o with
  | zadd argc v =>
    simp only [ozPrepare]
    split
    · rfl
    · rfl
    · split <;> rfl
  | zincrby argc v => simp only [ozPrepare]; split <;> rfl
  | zrem argc => simp only [ozPrepare]; split <;> rfl

/-- What a prepare phase sends: an add takes the next tag, the others name the live tags. -/
theorem ozPrepare_some {r : Fin n} {c : OzCell} {o : ZCmd} {m : OzMsg}
    (h : (ozPrepare r c o).2.toOption = some m) :
    (∃ v, m = .add v ⟨c.get.current, (r : ℕ)⟩ ∧
      (ozPrepare r c o).1.get.current = c.get.current + 1) ∨
    ((ozPrepare r c o).1 = c ∧ ((∃ v, m = .inc v (c.get.aset.map OzAse.t)) ∨
      m = .rem (c.get.aset.map OzAse.t))) := by
  cases o with
  | zadd argc v =>
    simp only [ozPrepare] at h ⊢
    split at h
    · cases h
    · cases h
    · rename_i v _ _
      split at h
      · cases h
      · rename_i hl
        cases h
        exact .inl ⟨v, rfl, by rw [if_neg hl]; rfl⟩
  | zincrby argc v =>
    simp only [ozPrepare] at h ⊢
    split at h
    · cases h
    · cases h
    · cases h
    · rename_i v e _ he _
      have hg : c.get = e := by simp [OzCell.get, he]
      split at h
      · cases h; exact .inr ⟨rfl, .inl ⟨v, by rw [hg]⟩⟩
      · cases h
  | zrem argc =>
    simp only [ozPrepare] at h ⊢
    split at h
    · cases h
    · cases h
    · rename_i e he _
      have hg : c.get = e := by simp [OzCell.get, he]
      split at h
      · cases h; exact .inr ⟨rfl, .inr (by rw [hg])⟩
      · cases h

/-- No prepare phase takes a tag back. -/
theorem ozPrepare_current (r : Fin n) (c : OzCell) (o : ZCmd) :
    c.get.current ≤ (ozPrepare r c o).1.get.current := by
  cases o with
  | zadd argc v =>
    simp only [ozPrepare]
    split
    · exact le_rfl
    · exact le_rfl
    · split
      · exact le_rfl
      · simp [OzCell.get]
  | zincrby argc v => simp only [ozPrepare]; split <;> exact le_rfl
  | zrem argc => simp only [ozPrepare]; split <;> exact le_rfl

/-- A step of replica `r` that takes no tag back, at every replica. -/
theorem ozCurrent_update (st : Fin n → OzCell) {r : Fin n} {c : OzCell}
    (h : (st r).get.current ≤ c.get.current) (q : Fin n) :
    (st q).get.current ≤ (Function.update st r c q).get.current := by
  by_cases hq : q = r
  · subst hq
    rwa [Function.update_self]
  · rw [Function.update_of_ne hq]

/-- In every state no two entries share a tag. -/
theorem ozEle_wf (hs : (ozEleObj n junk).Reach G s) (r : Fin n) :
    OzWf (s.st r).get.toOzTags := by
  refine hs.st_rule (I := fun _ c => OzWf c.get.toOzTags) (fun r => ?_) ?_ ?_ r
  · exact ⟨List.nodup_nil, nofun, nofun, nofun⟩
  · intro r c o c₁ m h hp
    obtain ⟨rfl, -⟩ := Prod.mk.inj hp
    rw [ozPrepare_tags]; exact h
  · exact fun r c m h => h.apply c.zset m

/-- The messages of an element: each names a tag once, and an add has a tag of its own, which its
origin has taken. -/
structure OzLog (s : OzSys n) : Prop where
  nodup : ∀ i o m, s.log i = some (o, m) → m.NodupTags
  tag : ∀ i o v t, s.log i = some (o, .add v t) → t.id = (o : ℕ) ∧ t.x < (s.st o).get.current
  uniq : ∀ i j o o' v v' t, s.log i = some (o, .add v t) → s.log j = some (o', .add v' t) → i = j

theorem ozEle_log (hs : (ozEleObj n junk).Reach G s) : OzLog s := by
  refine hs.rule (I := OzLog) ⟨nofun, nofun, nofun⟩ ?_ ?_ ?_
  · intro s r o i s₁ _ h _ hp
    obtain ⟨rfl, -⟩ := Prod.mk.inj hp
    have hcur := ozCurrent_update s.st (ozPrepare_current r (s.st r) o)
    exact ⟨h.nodup, fun j q v t hj =>
      (h.tag j q v t hj).imp_right fun hlt => hlt.trans_le (hcur q), h.uniq⟩
  · intro s r o i s₁ m hs h _ hp hl
    obtain ⟨rfl, hm⟩ := Prod.mk.inj hp
    have hcases := ozPrepare_some hm
    -- The new tag is larger than those that the origin has taken.
    have hfresh : ∀ v t, m = .add v t → t.id = (r : ℕ) ∧ t.x = (s.st r).get.current ∧
        t.x < (ozPrepare r (s.st r) o).1.get.current := by
      rintro v t rfl
      rcases hcases with ⟨v', he, hc⟩ | ⟨-, ⟨v', he⟩ | he⟩
      · cases he
        exact ⟨rfl, rfl, by rw [hc]; exact lt_add_one _⟩
      · cases he
      · cases he
    have hne : ∀ j q v v' t, s.log j = some (q, .add v t) → m ≠ .add v' t := by
      intro j q v v' t hj he
      obtain ⟨hid, hx, -⟩ := hfresh v' t he
      obtain ⟨hid', hlt⟩ := h.tag j q v t hj
      have hqr : q = r := Fin.ext (by rw [hid] at hid'; exact_mod_cast hid'.symm)
      subst hqr
      omega
    refine ⟨fun j q m' hj => ?_, fun j q v t hj => ?_, fun j j' q q' v v' t hj hj' => ?_⟩
    · rcases Obj.issue_log_cases hj with ⟨-, hx⟩ | ⟨-, hj⟩
      · cases hx
        rcases hcases with ⟨v, rfl, -⟩ | ⟨-, ⟨v, rfl⟩ | rfl⟩
        · trivial
        · exact (ozEle_wf hs r).nodup
        · exact (ozEle_wf hs r).nodup
      · exact h.nodup j q m' hj
    · rcases Obj.issue_log_cases hj with ⟨-, hx⟩ | ⟨-, hj⟩
      · cases hx
        obtain ⟨hid, -, hlt⟩ := hfresh v t rfl
        rw [Obj.issue_st_self]
        exact ⟨hid, hlt⟩
      · have hcur := ozCurrent_update s.st
          (c := ozEffect (junk r) (ozPrepare r (s.st r) o).1 m) (ozPrepare_current r (s.st r) o)
        exact (h.tag j q v t hj).imp_right fun hlt => hlt.trans_le (hcur q)
    · rcases Obj.issue_log_cases hj with ⟨rfl, hx⟩ | ⟨-, hold⟩ <;>
        rcases Obj.issue_log_cases hj' with ⟨rfl, hx'⟩ | ⟨-, hold'⟩
      · rfl
      · exact absurd (Prod.mk.inj hx).2.symm (hne j' q' v' v t hold')
      · exact absurd (Prod.mk.inj hx').2.symm (hne j q v v' t hold)
      · exact h.uniq j j' q q' v v' t hold hold'
  · intro s r i o m _ h _ _ _
    have hcur := ozCurrent_update s.st (c := ozEffect (junk r) (s.st r) m) le_rfl
    exact ⟨h.nodup, fun j q v t hj =>
      (h.tag j q v t hj).imp_right fun hlt => hlt.trans_le (hcur q), h.uniq⟩

/-- The tags of an element at replica `r` are those of the messages received, in some order. -/
theorem ozEle_fold (hs : (ozEleObj n junk).Reach G s) (r : Fin n) :
    ∃ l : List ℕ, l.Nodup ∧ (∀ i, i ∈ l ↔ i ∈ s.recv r) ∧
      (s.st r).get.toOzTags = (l.filterMap s.msg).foldl (ozStep (junk r)) ozTagsNew := by
  refine hs.fold (f := fun _ c => c.get.toOzTags) (g := fun r => ozStep (junk r)) ?_ ?_ r
  · intro r c o c₁ m hp
    obtain ⟨rfl, -⟩ := Prod.mk.inj hp
    exact ozPrepare_tags r c o
  · exact fun r c m => ozApply_fst (junk r) _ c.zset m

/-- The tag sets `e` of an element at replica `r` as a function of the messages applied there. -/
structure OzClosed (s : OzSys n) (r : Fin n) (e : OzTags) : Prop where
  rset : ∀ t, t ∈ e.rset ↔ ∃ i ∈ s.recv r, ∃ m, s.msg i = some m ∧ m.removes t = true
  aset : ∀ t, t ∈ e.aset.map OzAse.t ↔
    (∃ i ∈ s.recv r, ∃ m, s.msg i = some m ∧ m.names t = true) ∧ t ∉ e.rset
  nodup : (e.aset.map OzAse.t).Nodup
  inc : ∀ a ∈ e.aset, a.inc = ∑ i ∈ s.recv r, ((s.msg i).map (OzMsg.incOn a.t)).getD 0
  count : ∀ a ∈ e.aset,
    a.count = ∑ i ∈ s.recv r, ((s.msg i).map fun m => |m.incOn a.t|).getD 0
  x : ∀ a ∈ e.aset, ∀ i ∈ s.recv r, ∀ v, s.msg i = some (.add v a.t) → a.x = v

theorem ozEle_closed (hs : (ozEleObj n junk).Reach G s) (r : Fin n) :
    OzClosed s r (s.st r).get.toOzTags := by
  obtain ⟨l, hnd, hmem, hfold⟩ := ozEle_fold hs r
  have hlog := ozEle_log hs
  have hwf := ozEle_wf hs r
  -- A message of the list is a message received.
  have hL : ∀ m, m ∈ l.filterMap s.msg ↔ ∃ i ∈ s.recv r, s.msg i = some m := fun m => by
    simp [List.mem_filterMap, hmem]
  have hlogm : ∀ i m, s.msg i = some m → ∃ o, s.log i = some (o, m) := by
    intro i m h
    obtain ⟨⟨o, m'⟩, hl, rfl⟩ := Option.map_eq_some_iff.mp h
    exact ⟨o, hl⟩
  obtain ⟨-, htag⟩ := ozFold_tag (junk r) (L := l.filterMap s.msg) fun m hm => by
    obtain ⟨i, -, hi⟩ := (hL m).mp hm
    obtain ⟨o, hl⟩ := hlogm i m hi
    exact hlog.nodup i o m hl
  have hcl : ∀ t, TagClosed t (l.filterMap s.msg) (ozTag (s.st r).get.toOzTags t) := by
    intro t
    rw [hfold, htag]
    refine tagFold_closed fun v v' hv hv' => ?_
    obtain ⟨i, -, hi⟩ := (hL _).mp hv
    obtain ⟨j, -, hj⟩ := (hL _).mp hv'
    obtain ⟨o, hl⟩ := hlogm i _ hi
    obtain ⟨o', hl'⟩ := hlogm j _ hj
    have hij := hlog.uniq i j o o' v v' t hl hl'
    subst hij
    rw [hi] at hj; cases hj; rfl
  have hswap : ∀ p : OzMsg → Prop, (∃ m, (∃ i ∈ s.recv r, s.msg i = some m) ∧ p m) ↔
      ∃ i ∈ s.recv r, ∃ m, s.msg i = some m ∧ p m := by
    intro p
    constructor
    · rintro ⟨m, ⟨i, hi, hm⟩, hp⟩
      exact ⟨i, hi, m, hm, hp⟩
    · rintro ⟨i, hi, m, hm, hp⟩
      exact ⟨m, ⟨i, hi, hm⟩, hp⟩
  have hrset : ∀ t, t ∈ (s.st r).get.rset ↔
      ∃ i ∈ s.recv r, ∃ m, s.msg i = some m ∧ m.removes t = true := fun t => by
    have := (hcl t).removed
    simp only [ozTag, decide_eq_true_eq, hL] at this
    rw [this]
    exact hswap _
  have hget : ∀ a ∈ (s.st r).get.aset, a ∈ (ozTag (s.st r).get.toOzTags a.t).2 := fun a ha =>
    find?_of_mem hwf.nodup ha
  have hl : l.toFinset = s.recv r := by ext i; simp [hmem]
  refine ⟨hrset, fun t => ?_, hwf.nodup, fun a ha => ?_, fun a ha => ?_, fun a ha i hi v hv => ?_⟩
  · have := (hcl t).entry
    simp only [ozTag, decide_eq_false_iff_not, hL] at this
    rw [show t ∈ (s.st r).get.aset.map OzAse.t ↔ ((s.st r).get.asetGet t).isSome from ?_, this]
    · exact and_congr_left fun _ => hswap _
    · rw [Option.isSome_iff_ne_none, ne_eq, OzTags.asetGet, find?_tagIs_none, not_not]
  · rw [(hcl a.t).inc a (hget a ha), Obj.sum_filterMap s.msg _ hnd, hl]
  · rw [(hcl a.t).count a (hget a ha), Obj.sum_filterMap s.msg _ hnd, hl]
  · exact (hcl a.t).x a (hget a ha) v ((hL _).mpr ⟨i, hi, hv⟩)

/-- Replicas that applied the same messages agree on the tag sets, on the increments and on
`LOOKUP`. -/
theorem OzClosed.agree {r q : Fin n} {e e' : OzTags} (hr : OzClosed s r e) (hq : OzClosed s q e')
    (hD : s.recv r = s.recv q) :
    (∀ t, t ∈ e.rset ↔ t ∈ e'.rset) ∧
      (∀ t, t ∈ e.aset.map OzAse.t ↔ t ∈ e'.aset.map OzAse.t) ∧
      (∀ a ∈ e.aset, ∀ a' ∈ e'.aset, a.t = a'.t → a.inc = a'.inc ∧ a.count = a'.count) ∧
      e.lookup = e'.lookup := by
  have hrset : ∀ t, t ∈ e.rset ↔ t ∈ e'.rset := fun t => by rw [hr.rset, hq.rset, hD]
  have haset : ∀ t, t ∈ e.aset.map OzAse.t ↔ t ∈ e'.aset.map OzAse.t := fun t => by
    rw [hr.aset, hq.aset, hD, hrset]
  refine ⟨hrset, haset, fun a ha a' ha' ht => ?_, ?_⟩
  · rw [hr.inc a ha, hq.inc a' ha', hr.count a ha, hq.count a' ha', hD, ht]
    exact ⟨rfl, rfl⟩
  · have hnil : e.aset = [] ↔ e'.aset = [] := by
      rw [← List.map_eq_nil_iff (f := OzAse.t), ← List.map_eq_nil_iff (f := OzAse.t) (l := e'.aset)]
      simp only [List.eq_nil_iff_forall_not_mem, haset]
    rw [Bool.eq_iff_iff]
    simp [OzTags.lookup, hnil]

end Element

/-! ## The queue -/

section Queue

variable {junk : Sds → Fin n → Lc → ℚ}

/-- The part of a run of the queue that is about element `k`: the broadcasts that name it. -/
def ozOn (junk : Sds → Fin n → Lc → ℚ) (s : Sys (Fin n) (Sds → OzCell) (Sds × OzMsg)) (k : Sds) :
    OzSys n :=
  (keyedView (fun k => ozEleObj n (junk k)) k).sys s

/-- **Convergence of the tag sets**: in every run of the queue, with every order of delivery and
whatever the memory of new entries holds, the tag sets of every element are a function of the set of
messages on it that the replica applied. -/
theorem oz_convergence {s : Sys (Fin n) (Sds → OzCell) (Sds × OzMsg)}
    (hs : (ozObj n junk).Reach anyOrder s) :
    (∀ k r, OzClosed (ozOn junk s k) r (s.st r k).get.toOzTags) ∧
    ∀ k r q, (ozOn junk s k).recv r = (ozOn junk s k).recv q →
      let e := (s.st r k).get.toOzTags
      let e' := (s.st q k).get.toOzTags
      (∀ t, t ∈ e.rset ↔ t ∈ e'.rset) ∧
        (∀ t, t ∈ e.aset.map OzAse.t ↔ t ∈ e'.aset.map OzAse.t) ∧
        (∀ a ∈ e.aset, ∀ a' ∈ e'.aset, a.t = a'.t → a.inc = a'.inc ∧ a.count = a'.count) ∧
        e.lookup = e'.lookup := by
  have hclosed : ∀ k r, OzClosed (ozOn junk s k) r (s.st r k).get.toOzTags := fun k r =>
    ozEle_closed ((keyedView _ k).reach_any (fun _ _ _ => trivial) hs) r
  exact ⟨hclosed, fun k r q hD => (hclosed k r).agree (hclosed k q) hD⟩

/-- Replica 1 receives a remove before the add whose tag it names; the tag that replica 1 adds
meanwhile survives. -/
def ozDemo : List (Ev (Fin 2) (Sds × ZCmd)) :=
  let a : Sds := ['a']
  [.op 0 (a, .zadd 4 (some 5)) 0, .op 0 (a, .zincrby 4 (some 2)) 1, .op 0 (a, .zrem 3) 2,
    .op 1 (a, .zadd 4 (some 7)) 3, .recv 1 2, .recv 1 1, .recv 1 0, .recv 0 3]

/-- The hypothesis holds of a run with an add that is concurrent with a remove. -/
theorem oz_convergence_demo :
    let s := (ozObj 2 fun _ _ _ => 0).runOf ozDemo
    let e := (s.st 0 ['a']).get.toOzTags
    let e' := (s.st 1 ['a']).get.toOzTags
    (∀ t, t ∈ e.rset ↔ t ∈ e'.rset) ∧
      (∀ t, t ∈ e.aset.map OzAse.t ↔ t ∈ e'.aset.map OzAse.t) ∧
      (∀ a ∈ e.aset, ∀ a' ∈ e'.aset, a.t = a'.t → a.inc = a'.inc ∧ a.count = a'.count) ∧
      e.lookup = e'.lookup :=
  (oz_convergence (Obj.reach_runOf (g := fun _ _ => true) (fun _ _ _ => trivial) ozDemo
    (by decide +kernel))).2 ['a'] 0 1 (by decide +kernel)

end Queue

end CrdtRedis
