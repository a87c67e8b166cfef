import CrdtRedis.LamportClock
import CrdtRedis.Leid
import CrdtRedis.Text

/-!
# Clocks and identifiers as arguments (`vector_clock.c`, `list_basics.c`, `lamport_clock.h`)

A clock or an identifier travels as text: the entries of a vector clock with `,` between them and
`|` before the id, the fields of a position with `,` and the positions with `|`. The encoders are
loops up to the last entry, which is written by itself. The decoders move a pointer through the
text and write to a buffer of fixed size. An encoder fails where it reads an entry that is not
there; a decoder fails where its pointer leaves the string, where it writes past its buffer, and
where a number is not an `int`.

* `vcToSds_sdsToVC`, `leidToSds_sdsToLeid`: the round trip succeeds exactly if the buffer is large
  enough.
* `codecs_roundTrip`: so what fits the buffers comes back as it was sent.
-/

namespace CrdtRedis

/-! ## Lamport clocks -/

/-- `lcToSds`. -/
def lcToSds (t : Lc) : List Char := intText t.x ++ ',' :: intText t.id

/-- `sdsToLc`: a field that `sscanf` does not reach is undefined. -/
def sdsToLc (s : List Char) : Option Lc :=
  (scanInt (cstr s)).bind fun (x, p) =>
    match p with
    | ',' :: p => (scanInt p).bind fun (id, _) =>
      if IsInt x ∧ IsInt id then some ⟨x, id⟩ else none
    | _ => none

/-- A Lamport clock of the program. -/
structure Lc.InInt (t : Lc) : Prop where
  x : IsInt t.x
  id : IsInt t.id

theorem sdsToLc_lcToSds {t : Lc} (ht : t.InInt) : sdsToLc (lcToSds t) = some t := by
  have htext : cstr (lcToSds t) = intText t.x ++ ',' :: (intText t.id ++ '\x00' :: []) := by
    simp [cstr, lcToSds]
  unfold sdsToLc
  rw [htext, scanInt_intText t.x (by decide), Option.bind_some]
  simp only
  rw [scanInt_intText t.id (by decide), Option.bind_some]
  exact if_pos ⟨ht.x, ht.id⟩

/-! ## Vector clocks -/

/-- `vcToSds`. -/
def vcToSds (c : RawVc) : Option (List Char) :=
  let i := c.vector.length - 1
  c.vector[i]?.map fun x =>
    (c.vector.take i).flatMap (fun y => intText y ++ [',']) ++ (intText x ++ '|' :: intText c.id)

/-- The size of `vc_int_buf`. -/
def vcIntBuf : ℕ := 100

/-- The loop of `sdsToVC` with room for `room` more entries: the entries, and the pointer to the
id. -/
def readEntries : ℕ → List Char → Option (List ℤ × List Char)
  | 0, _ => none
  | room + 1, p =>
    (atoi p).bind fun x => (scanTo [',', '|'] p).bind fun p =>
      if p.head? = some '|' then some ([x], p.tail)
      else (readEntries room p.tail).map fun r => (x :: r.1, r.2)

/-- `sdsToVC`. -/
def sdsToVC (s : List Char) : Option RawVc :=
  (readEntries vcIntBuf (cstr s)).bind fun (vector, p) => (atoi p).map fun id => ⟨vector, id⟩

/-- A vector clock of the program. -/
structure RawVc.InInt (c : RawVc) : Prop where
  entries : ∀ x ∈ c.vector, IsInt x
  id : IsInt c.id

theorem readEntries_last (room : ℕ) {x : ℤ} (hx : IsInt x) (s : List Char) :
    readEntries (room + 1) (intText x ++ '|' :: s) = some ([x], s) := by
  unfold readEntries
  rw [atoi_intText hx (by decide), Option.bind_some, scanTo_intText (by decide) x (by decide),
    Option.bind_some]
  exact if_pos rfl

theorem readEntries_next (room : ℕ) {x : ℤ} (hx : IsInt x) (s : List Char) :
    readEntries (room + 1) (intText x ++ ',' :: s) =
      (readEntries room s).map fun r => (x :: r.1, r.2) := by
  conv_lhs => unfold readEntries
  rw [atoi_intText hx (by decide), Option.bind_some, scanTo_intText (by decide) x (by decide),
    Option.bind_some]
  exact if_neg (by simp)

/-- The loop reads back what was written, as far as the buffer goes. -/
theorem readEntries_text {l : List ℤ} (hl : ∀ y ∈ l, IsInt y) {x : ℤ} (hx : IsInt x) (room : ℕ)
    (s : List Char) :
    readEntries room (l.flatMap (fun y => intText y ++ [',']) ++ (intText x ++ '|' :: s)) =
      if l.length < room then some (l ++ [x], s) else none := by
  induction l generalizing room with
  | nil =>
    cases room with
    | zero => rfl
    | succ room =>
      rw [List.flatMap_nil, List.nil_append, readEntries_last room hx, if_pos (by simp)]
      rfl
  | cons y l ih =>
    cases room with
    | zero => rfl
    | succ room =>
      have hy := hl y List.mem_cons_self
      rw [List.flatMap_cons, List.append_assoc, List.append_assoc, List.singleton_append,
        readEntries_next room hy, ih fun z hz => hl z (List.mem_cons_of_mem _ hz)]
      by_cases hlen : l.length < room
      · rw [if_pos hlen, if_pos (by simpa using hlen)]
        rfl
      · rw [if_neg hlen, if_neg (by simpa using hlen)]
        rfl

/-- The round trip of a vector clock: the text of a clock without entries is undefined, the buffer
has room for 100. -/
theorem vcToSds_sdsToVC {c : RawVc} (hc : c.InInt) :
    (vcToSds c).bind sdsToVC =
      if c.vector ≠ [] ∧ c.vector.length ≤ vcIntBuf then some c else none := by
  rcases List.eq_nil_or_concat c.vector with hnil | ⟨l, x, hlx⟩
  · rw [if_neg (by simp [hnil]), vcToSds, hnil]
    rfl
  · have hl : ∀ y ∈ l, IsInt y := fun y hy => hc.entries y (by simp [hlx, hy])
    have hx : IsInt x := hc.entries x (by simp [hlx])
    have htext : vcToSds c =
        some (l.flatMap (fun y => intText y ++ [',']) ++ (intText x ++ '|' :: intText c.id)) := by
      simp [vcToSds, hlx]
    have hcstr : cstr (l.flatMap (fun y => intText y ++ [',']) ++
        (intText x ++ '|' :: intText c.id)) =
        l.flatMap (fun y => intText y ++ [',']) ++
          (intText x ++ '|' :: (intText c.id ++ '\x00' :: [])) := by
      simp [cstr]
    rw [htext, Option.bind_some, sdsToVC, hcstr, readEntries_text hl hx]
    by_cases hlen : l.length < vcIntBuf
    · have hfit : c.vector ≠ [] ∧ c.vector.length ≤ vcIntBuf := by
        rw [hlx]
        simpa using hlen
      rw [if_pos hlen, if_pos hfit, Option.bind_some]
      simp only
      rw [atoi_intText hc.id (by decide), Option.map_some, ← List.concat_eq_append, ← hlx]
    · rw [if_neg hlen, if_neg (by rw [hlx]; simpa using hlen)]
      rfl

/-! ## Identifiers -/

/-- The text of a position. -/
def positionText (x : Position) : List Char :=
  intText x.pos ++ ',' :: (intText x.pid ++ ',' :: intText x.count)

/-- `leidToSds`. -/
def leidToSds (p : Leid) : Option (List Char) :=
  let i := p.length - 1
  p[i]?.map fun x => (p.take i).flatMap (fun y => positionText y ++ ['|']) ++ positionText x

/-- The size of `leid_buf`. -/
def leidBuf : ℕ := 1024

/-- The loop of `sdsToLeid` with room for `room` more positions. -/
def readPositions : ℕ → List Char → Option Leid
  | 0, _ => none
  | room + 1, p =>
    (atoi p).bind fun pos => (scanTo [','] p).bind fun p =>
      (atoi p.tail).bind fun pid => (scanTo [','] p.tail).bind fun p =>
        (atoi p.tail).bind fun count => (scanTo ['|', '\x00'] p.tail).bind fun p =>
          if p.head? = some '\x00' then some [⟨pos, pid, count⟩]
          else (readPositions room p.tail).map (⟨pos, pid, count⟩ :: ·)

/-- `sdsToLeid`. -/
def sdsToLeid (s : List Char) : Option Leid := readPositions leidBuf (cstr s)

/-- A position of the program. -/
structure Position.InInt (x : Position) : Prop where
  pos : IsInt x.pos
  pid : IsInt x.pid
  count : IsInt x.count

/-- One round of the loop. -/
theorem readPositions_step (room : ℕ) {x : Position} (hx : x.InInt) {c : Char}
    (hc : c ∈ ['|', '\x00']) (s : List Char) :
    readPositions (room + 1) (positionText x ++ c :: s) =
      if c = '\x00' then some [x] else (readPositions room s).map (x :: ·) := by
  have hdigit : c.isDigit = false := by
    rcases List.mem_pair.mp hc with rfl | rfl <;> decide
  have htext : positionText x ++ c :: s =
      intText x.pos ++ ',' :: (intText x.pid ++ ',' :: (intText x.count ++ c :: s)) := by
    simp [positionText]
  conv_lhs => unfold readPositions
  rw [htext, atoi_intText hx.pos (by decide), Option.bind_some,
    scanTo_intText (by decide) x.pos (by decide), Option.bind_some, List.tail_cons,
    atoi_intText hx.pid (by decide), Option.bind_some,
    scanTo_intText (by decide) x.pid (by decide), Option.bind_some, List.tail_cons,
    atoi_intText hx.count hdigit, Option.bind_some, scanTo_intText (by decide) x.count hc,
    Option.bind_some, List.head?_cons, List.tail_cons]
  simp only [Option.some.injEq]

/-- The loop reads back what was written, as far as the buffer goes. -/
theorem readPositions_text {l : Leid} (hl : ∀ y ∈ l, y.InInt) {x : Position} (hx : x.InInt)
    (room : ℕ) :
    readPositions room (l.flatMap (fun y => positionText y ++ ['|']) ++
      (positionText x ++ '\x00' :: [])) = if l.length < room then some (l ++ [x]) else none := by
  induction l generalizing room with
  | nil =>
    cases room with
    | zero => rfl
    | succ room =>
      rw [List.flatMap_nil, List.nil_append, readPositions_step room hx (by decide),
        if_pos rfl, if_pos (by simp)]
      rfl
  | cons y l ih =>
    cases room with
    | zero => rfl
    | succ room =>
      have hy := hl y List.mem_cons_self
      rw [List.flatMap_cons, List.append_assoc, List.append_assoc, List.singleton_append,
        readPositions_step room hy (by decide), if_neg (by decide),
        ih fun z hz => hl z (List.mem_cons_of_mem _ hz)]
      by_cases hlen : l.length < room
      · rw [if_pos hlen, if_pos (by simpa using hlen)]
        rfl
      · rw [if_neg hlen, if_neg (by simpa using hlen)]
        rfl

/-- The round trip of an identifier: the buffer has room for 1024 positions. -/
theorem leidToSds_sdsToLeid {p : Leid} (hp : ∀ x ∈ p, x.InInt) :
    (leidToSds p).bind sdsToLeid = if p ≠ [] ∧ p.length ≤ leidBuf then some p else none := by
  rcases List.eq_nil_or_concat p with rfl | ⟨l, x, rfl⟩
  · rfl
  · have hl : ∀ y ∈ l, y.InInt := fun y hy => hp y (by simp [hy])
    have hx : x.InInt := hp x (by simp)
    have htext : leidToSds (l.concat x) =
        some (l.flatMap (fun y => positionText y ++ ['|']) ++ positionText x) := by
      simp [leidToSds]
    rw [htext, Option.bind_some, sdsToLeid, cstr, List.append_assoc, readPositions_text hl hx,
      List.concat_eq_append]
    by_cases hlen : l.length < leidBuf
    · rw [if_pos hlen, if_pos (by simpa using hlen)]
    · rw [if_neg hlen, if_neg (by simpa using hlen)]

/-! ## What fits comes back -/

/-- Every clock and identifier of the program that the buffers have room for is read back as it was
written. -/
theorem codecs_roundTrip :
    (∀ c : RawVc, 1 ≤ c.vector.length → c.vector.length ≤ 100 → c.InInt →
      (vcToSds c).bind sdsToVC = some c) ∧
    (∀ p : Leid, 1 ≤ p.length → p.length ≤ 1024 → (∀ x ∈ p, x.InInt) →
      (leidToSds p).bind sdsToLeid = some p) ∧
    ∀ t : Lc, t.InInt → sdsToLc (lcToSds t) = some t := by
  refine ⟨fun c h1 h100 hc => ?_, fun p h1 h1024 hp => ?_, fun t ht => sdsToLc_lcToSds ht⟩
  · rw [vcToSds_sdsToVC hc, if_pos ⟨List.length_pos_iff.mp h1, h100⟩]
  · rw [leidToSds_sdsToLeid hp, if_pos ⟨List.length_pos_iff.mp h1, h1024⟩]

/-- The largest and the smallest `int`. -/
theorem codecs_roundTrip_bounds :
    (⟨[2147483647, -2147483648, 0], -1⟩ : RawVc).InInt ∧
      (vcToSds ⟨[2147483647, -2147483648, 0], -1⟩).bind sdsToVC =
        some ⟨[2147483647, -2147483648, 0], -1⟩ := by
  have hc : (⟨[2147483647, -2147483648, 0], -1⟩ : RawVc).InInt := ⟨by decide, by decide⟩
  exact ⟨hc, codecs_roundTrip.1 _ (by decide) (by decide) hc⟩

end CrdtRedis
