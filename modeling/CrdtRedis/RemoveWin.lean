import CrdtRedis.Broadcast.Causal
import CrdtRedis.VectorClock

/-!
# The records of the Remove-Win types (`t_rzset.c`, `t_rlist.c`)

The two Remove-Win types keep the same records for an element (`RwSets`): the adds that no later
add or remove has replaced (`aset`), the removes that no later add has (`rset`), and the entry of
`aset` that the element shows (`value`). They differ in what an entry of `aset` holds and in what an
update does to it (`RwKind`). `value` is a pointer to an entry; here it is the timestamp of that
entry, which no two entries share.

* `RwSets.value_exec`: `value` is an entry with the greatest origin id (`RwSets.ValueOk`).
* `rwFold_closed`: after a history in causal order (`CausalHist`) the records are a function of
  the set of its messages, and each entry is its add with the updates above it (`RwClosed`).
* `RwClosed.apart`: the stored timestamps are pairwise concurrent, where between two removes there
  is an add.
* `RwClosed.value_congr`: histories with the same messages show the same entry.
-/

namespace CrdtRedis

open Broadcast

variable {n : ℕ}

/-- What a Remove-Win type adds to the records: an add carries an `N`, an update a `U`, and an
entry of `aset` is an `A`. -/
structure RwKind (n : ℕ) (N U A : Type) where
  stamp : A → Clock n
  new : N → Clock n → A
  upd : U → Clock n → A → A
  stamp_new : ∀ a t, stamp (new a t) = t
  stamp_upd : ∀ u t a, stamp (upd u t a) = stamp a

/-- An operation on an element. -/
inductive RwMsg (n : ℕ) (N U : Type) where
  | add (a : N) (t : Clock n)
  | upd (u : U) (t : Clock n)
  | rem (t : Clock n)
  deriving DecidableEq

def RwMsg.t {N U : Type} : RwMsg n N U → Clock n
  | .add _ t | .upd _ t | .rem t => t

section

variable {N U : Type} (t : Clock n)

@[simp] theorem RwMsg.t_add (a : N) : (.add a t : RwMsg n N U).t = t := rfl
@[simp] theorem RwMsg.t_upd (u : U) : (.upd u t : RwMsg n N U).t = t := rfl
@[simp] theorem RwMsg.t_rem : (.rem t : RwMsg n N U).t = t := rfl

end

def RwMsg.isUpd {N U : Type} : RwMsg n N U → Bool
  | .upd _ _ => true
  | _ => false

/-- `aset`, `rset` and `value` of an element. -/
structure RwSets (n : ℕ) (A : Type) where
  value : Option (Clock n)
  aset : List A
  rset : List (Clock n)

def RwSets.new {A : Type} : RwSets n A := ⟨none, [], []⟩

/-- `LOOKUP`. -/
def RwSets.lookup {A : Type} (s : RwSets n A) : Bool := !s.aset.isEmpty && s.rset.isEmpty

variable {N U A : Type} (K : RwKind n N U A)

/-- The entry with the larger origin id, the first of them if the ids are equal. -/
def larger : Option (Clock n) → Clock n → Option (Clock n)
  | none, t => some t
  | some v, t => if v.id < t.id then some t else some v

/-- The search for a new `value`. -/
def elect (l : List A) : Option (Clock n) := l.foldl (fun v a => larger v (K.stamp a)) none

/-- An entry that happened before `t`. -/
def before (c t : Clock n) : Bool := vcCmp c t == VC_LESS

theorem before_self (t : Clock n) : before t t = false := by
  simp [before, vcCmp, firstDiff_eq_none.mpr rfl, cmpIds, VC_CMP_ERR, VC_LESS]

namespace RwSets

/-- The entries of `aset` that happened before `t` are deleted, and `value` with them. The flag is
`ase_removed`. -/
def drop (s : RwSets n A) (t : Clock n) : RwSets n A × Bool :=
  let gone := s.aset.filter fun a => before (K.stamp a) t
  ({ s with
      value := if gone.any fun a => s.value = some (K.stamp a) then none else s.value
      aset := s.aset.filter fun a => !before (K.stamp a) t }, !gone.isEmpty)

/-- The part of `addFunc` and `insertFunc` about the records. -/
def add (s : RwSets n A) (a : N) (t : Clock n) : RwSets n A :=
  let (s, aseRemoved) := drop K { s with aset := s.aset ++ [K.new a t] } t
  let s := { s with rset := s.rset.filter fun r => !before r t }
  let value := if aseRemoved && s.value.isNone then elect K s.aset else s.value
  { s with value := larger value t }

/-- The part of `increaseFunc` and `updateFunc`. -/
def update (s : RwSets n A) (u : U) (t : Clock n) : RwSets n A :=
  { s with aset := s.aset.map fun a => if before (K.stamp a) t then K.upd u t a else a }

/-- The part of `removeFunc`. -/
def remove (s : RwSets n A) (t : Clock n) : RwSets n A :=
  let (s, _) := drop K { s with rset := s.rset ++ [t] } t
  { s with value := if s.value.isNone then elect K s.aset else s.value }

def exec (s : RwSets n A) : RwMsg n N U → RwSets n A
  | .add a t => s.add K a t
  | .upd u t => s.update K u t
  | .rem t => s.remove K t

end RwSets

/-! ## Membership -/

section Lookup

variable {K} (s : RwSets n A)

/-- An add keeps a member. -/
theorem RwSets.lookup_add (a : N) (t : Clock n) (h : s.lookup = true) :
    (s.add K a t).lookup = true := by
  simp only [RwSets.lookup, Bool.and_eq_true, Bool.not_eq_true', List.isEmpty_eq_false_iff,
    List.isEmpty_iff] at h ⊢
  simp [RwSets.add, RwSets.drop, h.2, K.stamp_new, before_self]

theorem RwSets.lookup_update (u : U) (t : Clock n) : (s.update K u t).lookup = s.lookup := by
  simp [RwSets.lookup, RwSets.update]

/-- After a remove the element is no member. -/
theorem RwSets.lookup_remove (t : Clock n) : (s.remove K t).lookup = false := by
  simp [RwSets.lookup, RwSets.remove, RwSets.drop]

end Lookup

/-! ## The entry that is shown -/

section Value

variable {K}

/-- `v` is the timestamp of an entry of `l` with the greatest origin id, if `l` has entries. -/
structure Greatest (K : RwKind n N U A) (l : List A) (v : Option (Clock n)) : Prop where
  none : v = none ↔ l = []
  mem : ∀ c ∈ v, ∃ a ∈ l, K.stamp a = c
  le : ∀ c ∈ v, ∀ a ∈ l, (K.stamp a).id ≤ c.id

theorem Greatest.snoc {l : List A} {v : Option (Clock n)} (h : Greatest K l v) (a : A) :
    Greatest K (l ++ [a]) (larger v (K.stamp a)) := by
  cases v with
  | none =>
    have hl : l = [] := h.none.mp rfl
    exact ⟨by simp [larger], by simp [larger, hl], by simp [larger, hl]⟩
  | some c =>
    obtain ⟨b, hb, hbc⟩ := h.mem c rfl
    have hle := h.le c rfl
    by_cases hlt : c.id < (K.stamp a).id
    · simp only [larger, if_pos hlt]
      refine ⟨by simp, fun d hd => ⟨a, by simp, by simpa using hd⟩, fun d hd x hx => ?_⟩
      cases hd
      rcases List.mem_append.mp hx with hx | hx
      · exact (hle x hx).trans hlt.le
      · rw [List.mem_singleton.mp hx]
    · simp only [larger, if_neg hlt]
      refine ⟨by simp, fun d hd => ?_, fun d hd x hx => ?_⟩
      · cases hd; exact ⟨b, List.mem_append_left _ hb, hbc⟩
      · cases hd
        rcases List.mem_append.mp hx with hx | hx
        · exact hle x hx
        · rw [List.mem_singleton.mp hx]; exact not_lt.mp hlt

theorem greatest_elect (l : List A) : Greatest K l (elect K l) := by
  induction l using List.reverseRecOn with
  | nil => exact ⟨by simp [elect], by simp [elect], by simp [elect]⟩
  | append_singleton l a ih =>
    have : elect K (l ++ [a]) = larger (elect K l) (K.stamp a) := by simp [elect]
    rw [this]
    exact ih.snoc a

/-- An entry that stays greatest when others go. -/
theorem Greatest.filter {l : List A} {v : Option (Clock n)} {p : A → Bool} (h : Greatest K l v)
    (hp : ∀ c ∈ v, ∀ a ∈ l, K.stamp a = c → p a = true) : Greatest K (l.filter p) v := by
  refine ⟨⟨fun hv => by simp [h.none.mp hv], fun hl => ?_⟩, fun c hc => ?_, fun c hc a ha => ?_⟩
  · cases hv : v with
    | none => rfl
    | some c =>
      obtain ⟨a, ha, hac⟩ := h.mem c hv
      have hm : a ∈ l.filter p := List.mem_filter.mpr ⟨ha, hp c hv a ha hac⟩
      rw [hl] at hm; cases hm
  · obtain ⟨a, ha, hac⟩ := h.mem c hc
    exact ⟨a, List.mem_filter.mpr ⟨ha, hp c hc a ha hac⟩, hac⟩
  · exact h.le c hc a (List.mem_filter.mp ha).1

/-- What the deletion leaves of `value`: nothing, or the greatest entry of what is left. -/
theorem RwSets.drop_value {s : RwSets n A} (h : Greatest K s.aset s.value) (t : Clock n) :
    let s' := (s.drop K t).1
    (s'.value = none ∧ ((s.drop K t).2 = true ∨ s'.aset = [])) ∨
      Greatest K s'.aset s'.value := by
  simp only [RwSets.drop]
  split
  · rename_i hany
    obtain ⟨a, ha, -⟩ := List.any_eq_true.mp hany
    refine .inl ⟨rfl, .inl ?_⟩
    simpa using ⟨a, List.mem_filter.mp ha⟩
  · rename_i hany
    refine .inr (h.filter fun c hc a ha hac => ?_)
    by_contra hp
    refine hany (List.any_eq_true.mpr ⟨a, List.mem_filter.mpr ⟨ha, by simpa using hp⟩, ?_⟩)
    simpa [hac] using hc

/-- The new entry is not deleted. -/
theorem RwSets.drop_snoc (s : RwSets n A) (a : N) (t : Clock n) :
    RwSets.drop K { s with aset := s.aset ++ [K.new a t] } t =
      ({ (s.drop K t).1 with aset := (s.drop K t).1.aset ++ [K.new a t] }, (s.drop K t).2) := by
  simp [RwSets.drop, List.filter_append, K.stamp_new, before_self]

theorem larger_larger (v : Option (Clock n)) (t : Clock n) :
    larger (larger v t) t = larger v t := by
  cases v with
  | none => simp [larger]
  | some c =>
    by_cases h : c.id < t.id
    · simp [larger, h]
    · simp [larger, h]

theorem RwSets.add_aset (s : RwSets n A) (a : N) (t : Clock n) :
    (s.add K a t).aset = (s.aset.filter fun b => !before (K.stamp b) t) ++ [K.new a t] := by
  simp only [RwSets.add, RwSets.drop_snoc]
  rfl

/-- The entry with stamp `c` after an update. -/
theorem RwSets.find?_update (s : RwSets n A) (u : U) (t c : Clock n) :
    (s.update K u t).aset.find? (K.stamp · = c) =
      (s.aset.find? (K.stamp · = c)).map fun a => if before c t then K.upd u t a else a := by
  simp only [RwSets.update, List.find?_map]
  have hp : ((fun a => decide (K.stamp a = c)) ∘ fun a =>
      if before (K.stamp a) t then K.upd u t a else a) = fun a => decide (K.stamp a = c) := by
    funext a
    simp only [Function.comp_apply]
    split
    · rw [K.stamp_upd]
    · rfl
  rw [hp]
  cases hf : s.aset.find? fun a => decide (K.stamp a = c) with
  | none => rfl
  | some a =>
    have hac : K.stamp a = c := by simpa using List.find?_some hf
    simp [hac]

theorem RwSets.add_rset (s : RwSets n A) (a : N) (t : Clock n) :
    (s.exec K (.add a t : RwMsg n N U)).rset = s.rset.filter fun r => !before r t := by
  simp only [RwSets.exec, RwSets.add, RwSets.drop_snoc]
  rfl

/-- The choice of `value` after a deletion, with and without the flag. -/
theorem RwSets.elect_drop {s : RwSets n A} (h : Greatest K s.aset s.value) (t : Clock n)
    {b : Bool} (hb : (s.drop K t).2 = true → b = true) :
    Greatest K (s.drop K t).1.aset
      (if b && (s.drop K t).1.value.isNone then elect K (s.drop K t).1.aset
        else (s.drop K t).1.value) := by
  split
  · exact greatest_elect _
  · rename_i hne
    rcases s.drop_value h t with ⟨hv, hor⟩ | hg
    · have hl : (s.drop K t).1.aset = [] := hor.resolve_left fun hd => hne (by simp [hb hd, hv])
      rw [hl, hv]
      exact greatest_elect []
    · exact hg

/-- Every operation keeps `value` at an entry with the greatest origin id. -/
theorem RwSets.value_exec {s : RwSets n A} (h : Greatest K s.aset s.value) (m : RwMsg n N U) :
    Greatest K (s.exec K m).aset (s.exec K m).value := by
  cases m with
  | add a t =>
    have hg := (RwSets.elect_drop h t (b := (s.drop K t).2) id).snoc (K.new a t)
    simp only [RwSets.exec, RwSets.add, RwSets.drop_snoc]
    rw [K.stamp_new] at hg
    convert hg using 1
    -- With the new entry among the candidates, the last comparison changes nothing.
    split
    · have : elect K ((s.drop K t).1.aset ++ [K.new a t]) =
          larger (elect K (s.drop K t).1.aset) t := by simp [elect, K.stamp_new]
      rw [this, larger_larger]
    · rfl
  | upd u t =>
    have hst : ∀ b, K.stamp (if before (K.stamp b) t then K.upd u t b else b) = K.stamp b := by
      intro b; split <;> simp [K.stamp_upd]
    refine ⟨h.none.trans (by simp [RwSets.exec, RwSets.update]), fun c hc => ?_, fun c hc => ?_⟩
    · obtain ⟨b, hb, hbc⟩ := h.mem c hc
      exact ⟨_, List.mem_map_of_mem hb, (hst b).trans hbc⟩
    · intro x hx
      obtain ⟨b, hb, rfl⟩ := List.mem_map.mp hx
      rw [hst]
      exact h.le c hc b hb
  | rem t =>
    have hg := RwSets.elect_drop (s := { s with rset := s.rset ++ [t] }) h t (b := true)
      fun _ => rfl
    simpa [RwSets.exec, RwSets.remove] using hg

end Value

/-! ## Histories in causal order -/

/-- The stamp of an operation is its vector clock. -/
def rwStamp (n : ℕ) (N U : Type) : Stamp n (RwMsg n N U) where
  o m := m.t.id
  t m := m.t.vector

/-- A history in which no message comes before one of its past, and a timestamp that counts a
message is above the timestamp of the message. -/
structure CausalHist (H : List (RwMsg n N U)) : Prop where
  order : H.Pairwise fun m m' => ¬ m'.t.vector ≤ m.t.vector
  past : ∀ m ∈ H, ∀ m' ∈ H, m.t.vector m.t.id ≤ m'.t.vector m.t.id →
    m.t.vector ≤ m'.t.vector

/-- The records after a history. -/
def rwFold (H : List (RwMsg n N U)) : RwSets n A := H.foldl (RwSets.exec K) RwSets.new

/-- An add with the updates of a history above it, in the order of the history. -/
def rwEntry (H : List (RwMsg n N U)) (a : N) (t : Clock n) : A :=
  H.foldl (fun e m => match m with
    | .upd u t' => if before t t' then K.upd u t' e else e
    | _ => e) (K.new a t)

/-- No add and no remove of the history is above `t`. -/
def Survives (H : List (RwMsg n N U)) (t : Clock n) : Prop :=
  ∀ m ∈ H, m.isUpd = false → ¬ t.vector < m.t.vector

/-- The records are those of the messages of `H`. -/
structure RwClosed (K : RwKind n N U A) (H : List (RwMsg n N U)) (s : RwSets n A) : Prop where
  aset : ∀ e, e ∈ s.aset ↔ ∃ a t, .add a t ∈ H ∧ Survives H t ∧ e = rwEntry K H a t
  rset : ∀ t, t ∈ s.rset ↔ .rem t ∈ H ∧ ∀ a t', .add a t' ∈ H → ¬ t.vector < t'.vector
  value : Greatest K s.aset s.value
  once : (s.aset.map K.stamp).Nodup ∧ s.rset.Nodup

section Hist

variable {K} {H : List (RwMsg n N U)} {m : RwMsg n N U}

theorem rwFold_snoc : rwFold K (H ++ [m]) = (rwFold K H).exec K m := by simp [rwFold]

theorem CausalHist.init (h : CausalHist (H ++ [m])) : CausalHist H :=
  ⟨(List.pairwise_append.mp h.order).1, fun m₁ h₁ m₂ h₂ =>
    h.past m₁ (List.mem_append_left _ h₁) m₂ (List.mem_append_left _ h₂)⟩

/-- The messages of one origin are comparable. -/
theorem CausalHist.comparable (h : CausalHist H) (m m' : RwMsg n N U) (hm : m ∈ H) (hm' : m' ∈ H)
    (hid : m.t.id = m'.t.id) : m.t.vector ≤ m'.t.vector ∨ m'.t.vector ≤ m.t.vector := by
  rcases le_total (m.t.vector m.t.id) (m'.t.vector m.t.id) with hle | hle
  · exact .inl (h.past m hm m' hm' hle)
  · exact .inr (h.past m' hm' m hm (hid ▸ hle))

/-- The last message is not in the past of the others. -/
theorem CausalHist.last (h : CausalHist (H ++ [m])) (m' : RwMsg n N U) (hm : m' ∈ H) :
    ¬ m.t.vector ≤ m'.t.vector :=
  (List.pairwise_append.mp h.order).2.2 m' hm m (List.mem_singleton_self m)

/-- The comparison of timestamps of a history. -/
theorem CausalHist.before_iff (h : CausalHist H) (m m' : RwMsg n N U) (hm : m ∈ H)
    (hm' : m' ∈ H) : before m.t m'.t = true ↔ m.t.vector < m'.t.vector := by
  rw [before, beq_iff_eq]
  exact vcCmp_eq_less (h.comparable m m' hm hm')

/-- Timestamps determine the messages. -/
theorem CausalHist.eq_of_vector (h : CausalHist H) {m m' : RwMsg n N U} (hm : m ∈ H)
    (hm' : m' ∈ H) (he : m.t.vector = m'.t.vector) : m = m' := by
  induction H using List.reverseRecOn with
  | nil => cases hm
  | append_singleton H x ih =>
    rcases List.mem_append.mp hm with h₁ | h₁ <;> rcases List.mem_append.mp hm' with h₂ | h₂
    · exact ih h.init h₁ h₂
    · rw [List.mem_singleton.mp h₂] at he
      exact absurd he.ge (h.last m h₁)
    · rw [List.mem_singleton.mp h₁] at he
      exact absurd he.le (h.last m' h₂)
    · rw [List.mem_singleton.mp h₁, List.mem_singleton.mp h₂]

/-! ### Entries -/

theorem rwEntry_snoc_upd {a : N} {u : U} {t c : Clock n} :
    rwEntry K (H ++ [.upd u c]) a t =
      if before t c then K.upd u c (rwEntry K H a t) else rwEntry K H a t := by
  simp [rwEntry]

theorem rwEntry_snoc_of_ne {a : N} {t : Clock n} (hm : m.isUpd = false) :
    rwEntry K (H ++ [m]) a t = rwEntry K H a t := by
  cases m with
  | upd u t' => cases hm
  | add a' t' => simp [rwEntry]
  | rem t' => simp [rwEntry]

@[simp] theorem stamp_rwEntry (a : N) (t : Clock n) : K.stamp (rwEntry K H a t) = t := by
  induction H using List.reverseRecOn with
  | nil => exact K.stamp_new a t
  | append_singleton H m ih =>
    cases m with
    | upd u t' =>
      rw [rwEntry_snoc_upd]
      split
      · rw [K.stamp_upd, ih]
      · exact ih
    | add a' t' => rw [rwEntry_snoc_of_ne rfl, ih]
    | rem t' => rw [rwEntry_snoc_of_ne rfl, ih]

/-- No update that comes before an add is above it. -/
theorem CausalHist.entry_new {a : N} {t : Clock n} (h : CausalHist (H ++ [.add a t])) :
    rwEntry K (H ++ [.add a t]) a t = K.new a t := by
  rw [rwEntry_snoc_of_ne rfl]
  have hb : ∀ u t', .upd u t' ∈ H → before t t' = false := by
    intro u t' hm
    by_contra hb
    have hlt := (h.before_iff (.add a t) (.upd u t') (by simp) (by simp [hm])).mp
      (by simpa using hb)
    exact h.last _ hm hlt.le
  clear h
  induction H using List.reverseRecOn with
  | nil => rfl
  | append_singleton H m ih =>
    have ih' := ih fun u t' hm => hb u t' (List.mem_append_left _ hm)
    cases m with
    | upd u t' => rw [rwEntry_snoc_upd, hb u t' (by simp)]; simpa using ih'
    | add a' t' => rw [rwEntry_snoc_of_ne rfl, ih']
    | rem t' => rw [rwEntry_snoc_of_ne rfl, ih']

/-! ### The closed form -/

theorem survives_snoc {t : Clock n} : Survives (H ++ [m]) t ↔
    Survives H t ∧ (m.isUpd = false → ¬ t.vector < m.t.vector) := by
  simp [Survives, or_imp, forall_and]

/-- A new add survives what came before it. -/
theorem CausalHist.survives_new {a : N} {t : Clock n} (h : CausalHist (H ++ [.add a t])) :
    Survives (H ++ [.add a t]) t :=
  survives_snoc.mpr ⟨fun m hm _ hlt => h.last m hm hlt.le, fun _ => lt_irrefl _⟩

/-- The deletion of the entries before `t` keeps those that survive it. -/
theorem RwClosed.mem_filter {s : RwSets n A} (hs : RwClosed K H s) (h : CausalHist (H ++ [m]))
    (hm : m.isUpd = false) (e : A) :
    e ∈ s.aset.filter (fun b => !before (K.stamp b) m.t) ↔
      ∃ a t, .add a t ∈ H ∧ Survives (H ++ [m]) t ∧ e = rwEntry K (H ++ [m]) a t := by
  rw [List.mem_filter, hs.aset]
  constructor
  · rintro ⟨⟨a, t, ha, hsv, rfl⟩, hb⟩
    refine ⟨a, t, ha, survives_snoc.mpr ⟨hsv, fun _ hlt => ?_⟩, (rwEntry_snoc_of_ne hm).symm⟩
    have := (h.before_iff (.add a t) m (List.mem_append_left _ ha) (by simp)).mpr hlt
    simp only [stamp_rwEntry, Bool.not_eq_eq_eq_not, Bool.not_true] at hb
    exact absurd this (by simpa using hb)
  · rintro ⟨a, t, ha, hsv, rfl⟩
    obtain ⟨hsv, hlt⟩ := survives_snoc.mp hsv
    have hlt := hlt hm
    refine ⟨⟨a, t, ha, hsv, rwEntry_snoc_of_ne hm⟩, ?_⟩
    have := mt (h.before_iff (.add a t) m (List.mem_append_left _ ha) (by simp)).mp hlt
    simpa using this

/-- No record is kept twice. -/
theorem RwClosed.once_exec {s : RwSets n A} (hs : RwClosed K H s) (h : CausalHist (H ++ [m])) :
    ((s.exec K m).aset.map K.stamp).Nodup ∧ (s.exec K m).rset.Nodup := by
  have hfilter : ∀ t, ((s.aset.filter fun b => !before (K.stamp b) t).map K.stamp).Nodup :=
    fun t => hs.once.1.sublist (List.filter_sublist.map K.stamp)
  cases m with
  | add a t =>
    refine ⟨?_, ?_⟩
    · show ((s.add K a t).aset.map K.stamp).Nodup
      rw [RwSets.add_aset, List.map_append, List.map_singleton, K.stamp_new]
      refine (hfilter t).append (List.nodup_singleton t) fun c hc hct => ?_
      obtain ⟨e, he, rfl⟩ := List.mem_map.mp hc
      obtain ⟨b, t', hb, -, rfl⟩ := (hs.aset e).mp (List.mem_filter.mp he).1
      rw [stamp_rwEntry] at hct
      exact h.last _ hb (le_of_eq (congrArg Vc.vector (List.mem_singleton.mp hct)).symm)
    · rw [RwSets.add_rset]
      exact hs.once.2.filter _
  | upd u t =>
    refine ⟨?_, hs.once.2⟩
    have : (s.exec K (.upd u t)).aset.map K.stamp = s.aset.map K.stamp := by
      simp only [RwSets.exec, RwSets.update, List.map_map]
      refine List.map_congr_left fun b _ => ?_
      simp only [Function.comp_apply]
      split
      · exact K.stamp_upd u t b
      · rfl
    rw [this]
    exact hs.once.1
  | rem t =>
    refine ⟨hfilter t, ?_⟩
    show (s.rset ++ [t]).Nodup
    refine hs.once.2.append (List.nodup_singleton t) fun c hc hct => ?_
    have hr := (hs.rset c).mp hc
    exact h.last _ hr.1 (le_of_eq (congrArg Vc.vector (List.mem_singleton.mp hct)).symm)

/-- The adds after one more operation. -/
theorem RwClosed.aset_exec {s : RwSets n A} (hs : RwClosed K H s) (h : CausalHist (H ++ [m]))
    (e : A) : e ∈ (s.exec K m).aset ↔
      ∃ a t, .add a t ∈ H ++ [m] ∧ Survives (H ++ [m]) t ∧ e = rwEntry K (H ++ [m]) a t := by
  cases m with
  | add a t =>
    show e ∈ (s.add K a t).aset ↔ _
    have hf : e ∈ s.aset.filter (fun b => !before (K.stamp b) t) ↔ _ :=
      hs.mem_filter h rfl e
    rw [RwSets.add_aset, List.mem_append, List.mem_singleton, hf]
    constructor
    · rintro (⟨a', t', ha, hsv, he⟩ | rfl)
      · exact ⟨a', t', List.mem_append_left _ ha, hsv, he⟩
      · exact ⟨a, t, by simp, h.survives_new, h.entry_new.symm⟩
    · rintro ⟨a', t', ha, hsv, he⟩
      rcases List.mem_append.mp ha with ha | ha
      · exact .inl ⟨a', t', ha, hsv, he⟩
      · cases List.mem_singleton.mp ha
        exact .inr (he.trans h.entry_new)
  | upd u t =>
    show e ∈ (s.update K u t).aset ↔ _
    simp only [RwSets.update, List.mem_map, hs.aset]
    constructor
    · rintro ⟨e', ⟨a, t', ha, hsv, rfl⟩, rfl⟩
      exact ⟨a, t', List.mem_append_left _ ha, survives_snoc.mpr ⟨hsv, nofun⟩,
        by rw [rwEntry_snoc_upd, stamp_rwEntry]⟩
    · rintro ⟨a, t', ha, hsv, rfl⟩
      refine ⟨_, ⟨a, t', by simpa using ha, (survives_snoc.mp hsv).1, rfl⟩, ?_⟩
      rw [rwEntry_snoc_upd, stamp_rwEntry]
  | rem t =>
    show e ∈ (s.remove K t).aset ↔ _
    have hf : e ∈ s.aset.filter (fun b => !before (K.stamp b) t) ↔ _ :=
      hs.mem_filter h rfl e
    have hrem : (s.remove K t).aset = s.aset.filter fun b => !before (K.stamp b) t := rfl
    rw [hrem, hf]
    simp

/-- The removes after one more operation. -/
theorem RwClosed.rset_exec {s : RwSets n A} (hs : RwClosed K H s) (h : CausalHist (H ++ [m]))
    (t : Clock n) : t ∈ (s.exec K m).rset ↔
      .rem t ∈ H ++ [m] ∧ ∀ a t', .add a t' ∈ H ++ [m] → ¬ t.vector < t'.vector := by
  cases m with
  | add a t₀ =>
    rw [RwSets.add_rset, List.mem_filter, hs.rset]
    constructor
    · rintro ⟨⟨hr, hadd⟩, hb⟩
      refine ⟨List.mem_append_left _ hr, fun b t' hm hlt => ?_⟩
      rcases List.mem_append.mp hm with hm | hm
      · exact hadd b t' hm hlt
      · cases List.mem_singleton.mp hm
        have := (h.before_iff (.rem t) (.add a t₀) (List.mem_append_left _ hr)
          (by simp)).mpr hlt
        simp [show before t t₀ = true from this] at hb
    · rintro ⟨hr, hadd⟩
      have hr : .rem t ∈ H := by simpa using hr
      refine ⟨⟨hr, fun b t' hm => hadd b t' (List.mem_append_left _ hm)⟩, ?_⟩
      have := mt (h.before_iff (.rem t) (.add a t₀) (List.mem_append_left _ hr)
        (by simp)).mp (hadd a t₀ (by simp))
      simpa using this
  | upd u t₀ =>
    show t ∈ s.rset ↔ _
    simp [hs.rset]
  | rem t₀ =>
    show t ∈ s.rset ++ [t₀] ↔ _
    rw [List.mem_append, List.mem_singleton, hs.rset]
    constructor
    · rintro (⟨hr, hadd⟩ | rfl)
      · exact ⟨List.mem_append_left _ hr, fun b t' hm => hadd b t' (by simpa using hm)⟩
      · exact ⟨by simp, fun b t' hm hlt => h.last (.add b t') (by simpa using hm) hlt.le⟩
    · rintro ⟨hr, hadd⟩
      rcases List.mem_append.mp hr with hr | hr
      · exact .inl ⟨hr, fun b t' hm => hadd b t' (List.mem_append_left _ hm)⟩
      · cases List.mem_singleton.mp hr
        exact .inr rfl

/-- The closed form is kept by every operation. -/
theorem RwClosed.exec {s : RwSets n A} (hs : RwClosed K H s) (h : CausalHist (H ++ [m])) :
    RwClosed K (H ++ [m]) (s.exec K m) :=
  ⟨hs.aset_exec h, hs.rset_exec h, RwSets.value_exec hs.value m, hs.once_exec h⟩

/-- **The records after a history in causal order are a function of its messages.** -/
theorem rwFold_closed (h : CausalHist H) : RwClosed K H (rwFold K H) := by
  induction H using List.reverseRecOn with
  | nil =>
    exact ⟨by simp [rwFold, RwSets.new], by simp [rwFold, RwSets.new], by
      simpa [rwFold, RwSets.new, elect] using greatest_elect (K := K) [],
      by simp [rwFold, RwSets.new]⟩
  | append_singleton H m ih =>
    rw [rwFold_snoc]
    exact (ih h.init).exec h

/-- Two surviving adds of one origin are one. -/
theorem CausalHist.survives_eq (h : CausalHist H) {a a' : N} {t t' : Clock n} (ha : .add a t ∈ H)
    (ha' : .add a' t' ∈ H) (hs : Survives H t) (hs' : Survives H t') (hid : t.id = t'.id) :
    a = a' ∧ t = t' := by
  have hlt := hs _ ha' rfl
  have hgt := hs' _ ha rfl
  have heq : t.vector = t'.vector := by
    rcases h.comparable _ _ ha ha' hid with hle | hle
    · exact hle.eq_of_not_lt hlt
    · exact (hle.eq_of_not_lt hgt).symm
  cases h.eq_of_vector ha ha' heq
  exact ⟨rfl, rfl⟩

/-- A member has an add above each of its removes. -/
theorem RwClosed.add_above {s : RwSets n A} (hs : RwClosed K H s) (hl : s.lookup = true)
    {t : Clock n} (ht : .rem t ∈ H) : ∃ a t', .add a t' ∈ H ∧ t.vector < t'.vector := by
  by_contra hno
  have hmem : t ∈ s.rset := (hs.rset t).mpr ⟨ht, fun a t' ha hlt => hno ⟨a, t', ha, hlt⟩⟩
  have hnil : s.rset = [] := by
    simp only [RwSets.lookup, Bool.and_eq_true, List.isEmpty_iff] at hl
    exact hl.2
  rw [hnil] at hmem
  cases hmem

/-! ### Records are concurrent -/

/-- Timestamps of different replicas, neither of which counts the other. -/
structure Apart (t t' : Clock n) : Prop where
  not_le : ¬ t.vector ≤ t'.vector
  not_ge : ¬ t'.vector ≤ t.vector
  id_ne : t.id ≠ t'.id

/-- The timestamps that an element stores. -/
def RwSets.stamps (K : RwKind n N U A) (s : RwSets n A) : List (Clock n) :=
  s.aset.map K.stamp ++ s.rset

/-- Between two removes one of which saw the other there is an add. -/
def AddBetween (H : List (RwMsg n N U)) : Prop :=
  ∀ t t', .rem t ∈ H → .rem t' ∈ H → t.vector < t'.vector →
    ∃ a u, .add a u ∈ H ∧ t.vector < u.vector

theorem CausalHist.apart (h : CausalHist H) {m m' : RwMsg n N U} (hm : m ∈ H) (hm' : m' ∈ H)
    (hne : m ≠ m') (hlt : ¬ m.t.vector < m'.t.vector) (hgt : ¬ m'.t.vector < m.t.vector) :
    Apart m.t m'.t := by
  have hle : ¬ m.t.vector ≤ m'.t.vector := fun hle =>
    hne (h.eq_of_vector hm hm' (hle.eq_of_not_lt hlt))
  have hge : ¬ m'.t.vector ≤ m.t.vector := fun hge =>
    hne (h.eq_of_vector hm hm' (hge.eq_of_not_lt hgt).symm)
  exact ⟨hle, hge, fun hid => (h.comparable m m' hm hm' hid).elim hle hge⟩

/-- **The stored timestamps are pairwise concurrent.** -/
theorem RwClosed.apart {s : RwSets n A} (hs : RwClosed K H s) (h : CausalHist H)
    (hb : AddBetween H) : (s.stamps K).Pairwise Apart := by
  -- An entry of `aset` has the timestamp of an add that survives.
  have hadd : ∀ t ∈ s.aset.map K.stamp, ∃ a, .add a t ∈ H ∧ Survives H t := by
    intro t ht
    obtain ⟨e, he, rfl⟩ := List.mem_map.mp ht
    obtain ⟨a, t, ha, hsv, rfl⟩ := (hs.aset e).mp he
    rw [stamp_rwEntry]
    exact ⟨a, ha, hsv⟩
  refine List.pairwise_append.mpr ⟨hs.once.1.imp_of_mem fun {t t'} ht ht' hne => ?_,
    hs.once.2.imp_of_mem fun {t t'} ht ht' hne => ?_, fun t ht t' ht' => ?_⟩
  · obtain ⟨a, ha, hsv⟩ := hadd t ht
    obtain ⟨a', ha', hsv'⟩ := hadd t' ht'
    exact h.apart ha ha' (fun he => hne (congrArg RwMsg.t he)) (hsv _ ha' rfl) (hsv' _ ha rfl)
  · obtain ⟨hr, hno⟩ := (hs.rset t).mp ht
    obtain ⟨hr', hno'⟩ := (hs.rset t').mp ht'
    refine h.apart hr hr' (fun he => hne (congrArg RwMsg.t he)) (fun hlt => ?_) fun hlt => ?_
    · obtain ⟨a, u, ha, hu⟩ := hb t t' hr hr' hlt
      exact hno a u ha hu
    · obtain ⟨a, u, ha, hu⟩ := hb t' t hr' hr hlt
      exact hno' a u ha hu
  · obtain ⟨a, ha, hsv⟩ := hadd t ht
    obtain ⟨hr, hno⟩ := (hs.rset t').mp ht'
    exact h.apart ha hr nofun (hsv _ hr rfl) (hno a t ha)

end Hist

/-! ## Histories with the same messages -/

section Agree

variable {K} {H H' : List (RwMsg n N U)} {s s' : RwSets n A}

theorem survives_congr (hH : ∀ m, m ∈ H ↔ m ∈ H') (t : Clock n) :
    Survives H t ↔ Survives H' t := by
  simp only [Survives, hH]

theorem RwClosed.aset_nil (hs : RwClosed K H s) :
    s.aset = [] ↔ ∀ a t, .add a t ∈ H → ¬ Survives H t := by
  constructor
  · intro hnil a t ha hsv
    have := (hs.aset _).mpr ⟨a, t, ha, hsv, rfl⟩
    rw [hnil] at this; cases this
  · intro hno
    refine List.eq_nil_iff_forall_not_mem.mpr fun e he => ?_
    obtain ⟨a, t, ha, hsv, -⟩ := (hs.aset e).mp he
    exact hno a t ha hsv

theorem RwClosed.lookup_congr (hs : RwClosed K H s) (hs' : RwClosed K H' s')
    (hH : ∀ m, m ∈ H ↔ m ∈ H') : s.lookup = s'.lookup := by
  have ha : s.aset = [] ↔ s'.aset = [] := by
    rw [hs.aset_nil, hs'.aset_nil]
    simp only [hH, survives_congr hH]
  have hr : s.rset = [] ↔ s'.rset = [] := by
    simp only [List.eq_nil_iff_forall_not_mem, hs.rset, hs'.rset, hH]
  rw [Bool.eq_iff_iff]
  simp [RwSets.lookup, ha, hr]

/-- `value` is the surviving add with the greatest origin id. -/
theorem RwClosed.value_mem (hs : RwClosed K H s) {c : Clock n} (hc : s.value = some c) :
    (∃ a, .add a c ∈ H) ∧ Survives H c ∧
      ∀ a t, .add a t ∈ H → Survives H t → t.id ≤ c.id := by
  obtain ⟨e, he, hec⟩ := hs.value.mem c hc
  obtain ⟨a, t, ha, hsv, rfl⟩ := (hs.aset e).mp he
  rw [stamp_rwEntry] at hec
  subst hec
  refine ⟨⟨a, ha⟩, hsv, fun b t' hb hsv' => ?_⟩
  simpa using hs.value.le t hc _ ((hs.aset _).mpr ⟨b, t', hb, hsv', rfl⟩)

theorem RwClosed.value_congr (h : CausalHist H) (hs : RwClosed K H s) (hs' : RwClosed K H' s')
    (hH : ∀ m, m ∈ H ↔ m ∈ H') : s.value = s'.value := by
  have hnone : s.value = none ↔ s'.value = none := by
    rw [hs.value.none, hs'.value.none, hs.aset_nil, hs'.aset_nil]
    simp only [hH, survives_congr hH]
  cases hv : s.value with
  | none => exact (hnone.mp hv).symm
  | some c =>
    cases hv' : s'.value with
    | none => rw [hnone.mpr hv'] at hv; cases hv
    | some c' =>
      obtain ⟨⟨a, ha⟩, hsv, hmax⟩ := hs.value_mem hv
      obtain ⟨⟨a', ha'⟩, hsv', hmax'⟩ := hs'.value_mem hv'
      rw [← hH] at ha'
      rw [← survives_congr hH] at hsv'
      have hid : c.id = c'.id := le_antisymm
        (hmax' a c ((hH _).mp ha) ((survives_congr hH c).mp hsv)) (hmax a' c' ha' hsv')
      rw [(h.survives_eq ha ha' hsv hsv' hid).2]

end Agree

end CrdtRedis
