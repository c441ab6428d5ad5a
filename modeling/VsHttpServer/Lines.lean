import Mathlib.Data.List.Basic
import Mathlib.Tactic.Common

/-!
# Cutting bytes into lines

Lines end with CRLF. A byte string is cut at each CRLF, up to its end or to the
first CR or LF that is not part of a CRLF pair: `cutLine` cuts off the first
line, `cutLines` all of them.

* `cutLine_eq_some_iff`: the first line is what comes before a CRLF, free of CR
  and LF (`Clean`);
* `cutLine_append`: bytes of a line that has not ended are part of the next one;
* `cutLines_flatMap`: lines written with their CRLFs are cut back into lines;
* `flatMap_terminated_inj`: where a head ends is determined by its bytes;
* `exists_cut_of_isPrefix`: the first bytes of such lines are some of them whole,
  and the start of the next one;
* `cutLines_append`: what comes after the whole lines of `l` (`remainder l`) decides
  which lines more bytes bring; none, if it is not the start of a line.
-/

namespace Crlf

def cr : UInt8 := 13
def lf : UInt8 := 10

/-- No byte of `l` is a CR or an LF. -/
def Clean (l : List UInt8) : Prop := ∀ a ∈ l, a ≠ cr ∧ a ≠ lf

instance (l : List UInt8) : Decidable (Clean l) := List.decidableBAll _ l

/-- The first line and what follows its CRLF; `none` if the bytes end before, or
    at a CR or LF which is not part of a CRLF. -/
def cutLine : List UInt8 → Option (List UInt8 × List UInt8)
  | [] => none
  | a :: l =>
    if a = cr then
      if l.head? = some lf then some ([], l.tail) else none
    else if a = lf then none
    else (cutLine l).map fun p => (a :: p.1, p.2)

theorem clean_nil : Clean [] := fun _ h => absurd h List.not_mem_nil

theorem clean_cons {a : UInt8} {l : List UInt8} : Clean (a :: l) ↔ (a ≠ cr ∧ a ≠ lf) ∧ Clean l :=
  List.forall_mem_cons

/-- Bytes without CR and LF belong to the line that goes on after them. -/
theorem cutLine_append {x : List UInt8} (hx : Clean x) (l : List UInt8) :
    cutLine (x ++ l) = (cutLine l).map fun p => (x ++ p.1, p.2) := by
  induction x with
  | nil => simp
  | cons a x ih =>
    obtain ⟨⟨hcr, hlf⟩, hx⟩ := clean_cons.1 hx
    rw [List.cons_append, cutLine, if_neg hcr, if_neg hlf, ih hx, Option.map_map]
    rfl

@[simp] theorem cutLine_crlf (r : List UInt8) : cutLine (cr :: lf :: r) = some ([], r) := by
  simp [cutLine]

@[simp] theorem cutLine_cr : cutLine [cr] = none := by
  simp [cutLine]

theorem cutLine_cr_cons {b : UInt8} (hb : b ≠ lf) (r : List UInt8) : cutLine (cr :: b :: r) = none := by
  simp [cutLine, hb]

theorem cutLine_lf (r : List UInt8) : cutLine (lf :: r) = none := by
  simp [cutLine, show lf ≠ cr by decide]

theorem cutLine_clean {x : List UInt8} (hx : Clean x) : cutLine x = none := by
  rw [← List.append_nil x, cutLine_append hx]
  rfl

theorem cutLine_eq_some_iff {l x r : List UInt8} :
    cutLine l = some (x, r) ↔ l = x ++ cr :: lf :: r ∧ Clean x := by
  constructor
  · intro h
    induction l generalizing x with
    | nil => simp [cutLine] at h
    | cons a l ih =>
      rw [cutLine] at h
      split_ifs at h with hcr hb hlf
      · cases l with
        | nil => simp at hb
        | cons b l =>
          cases h
          rw [List.head?_cons, Option.some.injEq] at hb
          exact ⟨by rw [hcr, hb]; rfl, clean_nil⟩
      · rw [Option.map_eq_some_iff] at h
        obtain ⟨⟨y, s⟩, hy, he⟩ := h
        cases he
        obtain ⟨rfl, hc⟩ := ih hy
        exact ⟨rfl, clean_cons.2 ⟨⟨hcr, hlf⟩, hc⟩⟩
  · rintro ⟨rfl, hx⟩
    simp [cutLine_append hx]

/-- The lines of `l`. -/
def cutLines (l : List UInt8) : List (List UInt8) :=
  match _h : cutLine l with
  | none => []
  | some (x, r) => x :: cutLines r
termination_by l.length
decreasing_by
  rw [(cutLine_eq_some_iff.1 _h).1]
  simp
  omega

theorem cutLines_of_none {l : List UInt8} (h : cutLine l = none) : cutLines l = [] := by
  rw [cutLines]
  split
  · rfl
  · simp_all

theorem cutLines_of_some {l x r : List UInt8} (h : cutLine l = some (x, r)) :
    cutLines l = x :: cutLines r := by
  rw [cutLines]
  split
  · simp_all
  · simp_all

/-- The line `x` as it is sent. -/
def terminated (x : List UInt8) : List UInt8 := x ++ [cr, lf]

theorem cutLine_terminated {x : List UInt8} (hx : Clean x) (r : List UInt8) :
    cutLine (terminated x ++ r) = some (x, r) :=
  cutLine_eq_some_iff.2 ⟨by simp [terminated], hx⟩

/-- Cutting gives back the lines that were sent, and goes on after them. -/
theorem cutLines_flatMap {ls : List (List UInt8)} (h : ∀ x ∈ ls, Clean x) (r : List UInt8) :
    cutLines (ls.flatMap terminated ++ r) = ls ++ cutLines r := by
  induction ls with
  | nil => rfl
  | cons x ls ih =>
    rw [List.forall_mem_cons] at h
    rw [List.flatMap_cons, List.append_assoc,
      cutLines_of_some (cutLine_terminated h.1 _), ih h.2]
    rfl

/-- Lines up to an empty one, and what comes after it, are determined by the bytes. -/
theorem flatMap_terminated_inj {ls ks : List (List UInt8)} {r s : List UInt8}
    (hls : ∀ x ∈ ls, Clean x ∧ x ≠ []) (hks : ∀ x ∈ ks, Clean x ∧ x ≠ [])
    (h : ls.flatMap terminated ++ terminated [] ++ r = ks.flatMap terminated ++ terminated [] ++ s) :
    ls = ks ∧ r = s := by
  induction ls generalizing ks with
  | nil =>
    have hcut := congrArg cutLine h
    rw [List.flatMap_nil, List.nil_append, cutLine_terminated clean_nil] at hcut
    cases ks with
    | nil =>
      rw [List.flatMap_nil, List.nil_append, cutLine_terminated clean_nil] at hcut
      cases hcut
      exact ⟨rfl, rfl⟩
    | cons y ks =>
      obtain ⟨⟨hy, hne⟩, -⟩ := List.forall_mem_cons.1 hks
      rw [List.flatMap_cons, List.append_assoc, List.append_assoc, cutLine_terminated hy] at hcut
      cases hcut
      exact absurd rfl hne
  | cons x ls ih =>
    obtain ⟨⟨hx, hne⟩, hls⟩ := List.forall_mem_cons.1 hls
    have hcut := congrArg cutLine h
    rw [List.flatMap_cons, List.append_assoc, List.append_assoc, cutLine_terminated hx] at hcut
    cases ks with
    | nil =>
      rw [List.flatMap_nil, List.nil_append, cutLine_terminated clean_nil] at hcut
      cases hcut
      exact absurd rfl hne
    | cons y ks =>
      obtain ⟨⟨hy, -⟩, hks⟩ := List.forall_mem_cons.1 hks
      rw [List.flatMap_cons, List.append_assoc, List.append_assoc, cutLine_terminated hy,
        Option.some.injEq, Prod.mk.injEq, ← List.append_assoc, ← List.append_assoc] at hcut
      obtain ⟨rfl, hrest⟩ := ih hls hks hcut.2
      exact ⟨congrArg (· :: ls) hcut.1, hrest⟩

/-- The bytes up to the first empty line, that one included; all of them if there is none. -/
def headOf (l : List UInt8) : List UInt8 :=
  if (cutLines l).contains [] then
    ((cutLines l).takeWhile (· ≠ [])).flatMap terminated ++ terminated []
  else l

theorem headOf_nil : headOf [] = [] := by
  rw [headOf, cutLines_of_none rfl]
  rfl

theorem headOf_flatMap {ls : List (List UInt8)} (hls : ∀ x ∈ ls, Clean x ∧ x ≠ []) (r : List UInt8) :
    headOf (ls.flatMap terminated ++ terminated [] ++ r) = ls.flatMap terminated ++ terminated [] := by
  have hcut : cutLines (ls.flatMap terminated ++ terminated [] ++ r) = ls ++ [] :: cutLines r := by
    rw [List.append_assoc, cutLines_flatMap fun x hx => (hls x hx).1,
      cutLines_of_some (cutLine_terminated clean_nil r)]
  rw [headOf, hcut, if_pos (by simp), List.takeWhile_append_of_pos fun x hx => by
    simpa using (hls x hx).2]
  simp

/-- The start of a line whose CRLF has not come whole. -/
def IsOpen (t : List UInt8) : Prop := Clean t ∨ ∃ x, Clean x ∧ t = x ++ [cr]

theorem IsOpen.cutLine_eq {t : List UInt8} (h : IsOpen t) : cutLine t = none := by
  rcases h with h | ⟨x, hx, rfl⟩
  · exact cutLine_clean h
  · rw [cutLine_append hx, cutLine_cr]
    rfl

/-- An open line has no LF, and a CR only at its end. -/
theorem IsOpen.append_cons {y r : List UInt8} {b : UInt8} (h : IsOpen (y ++ b :: r)) :
    b ≠ lf ∧ (b = cr → r = []) := by
  rcases h with h | ⟨x, hx, he⟩
  · obtain ⟨hcr, hlf⟩ := h b (List.mem_append_right _ List.mem_cons_self)
    exact ⟨hlf, fun hb => absurd hb hcr⟩
  · rcases List.eq_nil_or_concat r with rfl | ⟨r, c, rfl⟩
    · have hb : b = cr := by
        have := congrArg List.getLast? he
        simpa using this
      exact ⟨by rw [hb]; decide, fun _ => rfl⟩
    · have hxc : (y ++ b :: r) ++ [c] = x ++ [cr] := by simpa using he
      have hxy : y ++ b :: r = x := (List.append_inj' hxc rfl).1
      obtain ⟨hcr, hlf⟩ := hx b (hxy ▸ List.mem_append_right _ List.mem_cons_self)
      exact ⟨hlf, fun hb => absurd hb hcr⟩

/-- A line cut before its end is open. -/
theorem isOpen_of_isPrefix {x t : List UInt8} (hx : Clean x) (ht : t <+: terminated x)
    (hne : t ≠ terminated x) : IsOpen t := by
  induction x generalizing t with
  | nil =>
    rcases t with - | ⟨a, - | ⟨b, t⟩⟩
    · exact .inl clean_nil
    · obtain ⟨rfl, -⟩ := List.cons_prefix_cons.1 ht
      exact .inr ⟨[], clean_nil, rfl⟩
    · obtain ⟨ha, ht⟩ := List.cons_prefix_cons.1 ht
      obtain ⟨hb, ht⟩ := List.cons_prefix_cons.1 ht
      rw [ha, hb, List.prefix_nil.1 ht] at hne
      exact absurd rfl hne
  | cons a x ih =>
    obtain ⟨ha, hx'⟩ := clean_cons.1 hx
    rcases t with - | ⟨b, t⟩
    · exact .inl clean_nil
    · obtain ⟨rfl, htx⟩ := List.cons_prefix_cons.1 ht
      rcases ih hx' htx fun h => hne (congrArg (b :: ·) h) with hc | ⟨y, hy, rfl⟩
      · exact .inl (clean_cons.2 ⟨ha, hc⟩)
      · exact .inr ⟨b :: y, clean_cons.2 ⟨ha, hy⟩, rfl⟩

/-- The lines of `ls` cut before their end: some of them are whole, and the next
    one is not. -/
theorem exists_cut_of_isPrefix {ls : List (List UInt8)} {p : List UInt8}
    (hp : p <+: ls.flatMap terminated) (hne : p ≠ ls.flatMap terminated) :
    ∃ ks x rest t, ls = ks ++ x :: rest ∧ p = ks.flatMap terminated ++ t ∧ t <+: terminated x ∧
      t ≠ terminated x := by
  induction ls generalizing p with
  | nil => exact absurd (List.prefix_nil.1 hp) hne
  | cons x ls ih =>
    rw [List.flatMap_cons] at hp hne
    by_cases hx : terminated x <+: p
    · -- the first line is whole
      obtain ⟨q, rfl⟩ := hx
      obtain ⟨ks, y, rest, t, rfl, rfl, ht, htne⟩ :=
        ih ((List.prefix_append_right_inj _).1 hp) fun h => hne (h ▸ rfl)
      exact ⟨x :: ks, y, rest, t, rfl, by simp, ht, htne⟩
    · refine ⟨[], x, ls, p, rfl, rfl, ?_, fun h => hx (h ▸ List.prefix_rfl)⟩
      exact (List.prefix_or_prefix_of_prefix hp (List.prefix_append _ _)).resolve_right hx

/-- What comes after the whole lines of `l`. -/
def remainder (l : List UInt8) : List UInt8 := l.drop ((cutLines l).flatMap terminated).length

/-- Cutting into whole lines, and the rest, which does not begin with one. -/
theorem exists_remainder (l : List UInt8) :
    ∃ t, l = (cutLines l).flatMap terminated ++ t ∧ cutLine t = none ∧ ∀ x ∈ cutLines l, Clean x := by
  -- the induction is on the lines
  induction l using cutLines.induct with
  | case1 l h =>
    rw [cutLines_of_none h]
    exact ⟨l, rfl, h, fun _ hx => absurd hx List.not_mem_nil⟩
  | case2 l x r h ih =>
    obtain ⟨t, hr, ht, hclean⟩ := ih
    obtain ⟨hl, hx⟩ := cutLine_eq_some_iff.1 h
    rw [cutLines_of_some h]
    refine ⟨t, ?_, ht, List.forall_mem_cons.2 ⟨hx, hclean⟩⟩
    rw [List.flatMap_cons, List.append_assoc, ← hr, hl, terminated, List.append_assoc]
    rfl

theorem flatMap_remainder (l : List UInt8) : (cutLines l).flatMap terminated ++ remainder l = l := by
  obtain ⟨t, hl, -⟩ := exists_remainder l
  rw [remainder, ← List.prefix_iff_eq_append]
  exact ⟨t, hl.symm⟩

theorem cutLine_remainder (l : List UInt8) : cutLine (remainder l) = none := by
  obtain ⟨t, hl, ht, -⟩ := exists_remainder l
  have : remainder l = t := List.append_cancel_left ((flatMap_remainder l).trans hl)
  rwa [this]

theorem clean_of_mem_cutLines {l x : List UInt8} (hx : x ∈ cutLines l) : Clean x := by
  obtain ⟨-, -, -, h⟩ := exists_remainder l
  exact h x hx

/-- More bytes leave the whole lines as they are. -/
theorem cutLines_append (l s : List UInt8) :
    cutLines (l ++ s) = cutLines l ++ cutLines (remainder l ++ s) := by
  conv_lhs => rw [← flatMap_remainder l, List.append_assoc]
  exact cutLines_flatMap (fun x hx => clean_of_mem_cutLines hx) _

/-- An open line is ended by what is left of its CRLF. -/
theorem IsOpen.exists_terminated {t : List UInt8} (h : IsOpen t) :
    ∃ x s, Clean x ∧ t ++ s = terminated x := by
  rcases h with h | ⟨x, hx, rfl⟩
  · exact ⟨t, [cr, lf], h, rfl⟩
  · exact ⟨x, [lf], hx, List.append_assoc _ _ _⟩

/-- A CR or LF that is not part of a CRLF stays, and no line is cut any more. -/
theorem cutLine_append_of_not_isOpen {t : List UInt8} (h : cutLine t = none) (ho : ¬IsOpen t)
    (s : List UInt8) : cutLine (t ++ s) = none := by
  induction t with
  | nil => exact absurd (.inl clean_nil) ho
  | cons a t ih =>
    rw [cutLine] at h
    rw [List.cons_append, cutLine]
    by_cases hcr : a = cr
    · rw [if_pos hcr] at h ⊢
      cases t with
      | nil => exact absurd (.inr ⟨[], clean_nil, congrArg (fun a => [a]) hcr⟩) ho
      | cons b t =>
        -- the byte after the CR is there already
        by_cases hb : b = lf
        · simp [hb] at h
        · simp [hb]
    rw [if_neg hcr] at h ⊢
    by_cases hlf : a = lf
    · rw [if_pos hlf]
    · rw [if_neg hlf, Option.map_eq_none_iff] at h ⊢
      refine ih h fun hopen => ho ?_
      rcases hopen with hc | ⟨y, hy, rfl⟩
      · exact .inl (clean_cons.2 ⟨⟨hcr, hlf⟩, hc⟩)
      · exact .inr ⟨a :: y, clean_cons.2 ⟨⟨hcr, hlf⟩, hy⟩, rfl⟩

end Crlf
