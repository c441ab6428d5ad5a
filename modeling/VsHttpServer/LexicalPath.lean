import Mathlib.Data.List.Infix
import Mathlib.Tactic.Common

/-!
# Lexical resolution of paths

A path is a list of segments, each a name or a step up (`..`). From a directory, given
by the names on the way to it, it leads to another (`walk`), the root being its own
parent. What it does everywhere is summed up by the number of steps it goes up, and the
names it then goes down (`reduce`).

* `walk_eq`: walking along a path is going up, and then down;
* `append_isPrefix_walk_iff`: when a path leads into a given directory;
* `render_isPrefix_iff`: the same for paths as strings, with `/` before each name.
-/

namespace LexicalPath

section Segments

variable {α : Type*}

inductive Segment (α : Type*)
  | up
  | name (a : α)
  deriving DecidableEq

/-- Where a path leads from the directory `root`. -/
def walk (root : List α) : List (Segment α) → List α
  | [] => root
  | .up :: s => walk root.dropLast s
  | .name a :: s => walk (root ++ [a]) s

/-- Some steps up, and then down along names. -/
structure Relative (α : Type*) where
  ups : Nat
  names : List α
  deriving DecidableEq

/-- One more segment: a step up takes back the last name, if there is one. -/
def Relative.push [DecidableEq α] (r : Relative α) : Segment α → Relative α
  | .up => if r.names = [] then { r with ups := r.ups + 1 } else { r with names := r.names.dropLast }
  | .name a => { r with names := r.names ++ [a] }

def reduce [DecidableEq α] (s : List (Segment α)) : Relative α := s.foldl Relative.push ⟨0, []⟩

theorem walk_append (root : List α) (s t : List (Segment α)) :
    walk root (s ++ t) = walk (walk root s) t := by
  induction s generalizing root with
  | nil => rfl
  | cons x s ih => cases x <;> exact ih _

theorem mem_of_mem_walk {root : List α} {s : List (Segment α)} {a : α} (h : a ∈ walk root s) :
    a ∈ root ∨ .name a ∈ s := by
  induction s generalizing root with
  | nil => exact .inl h
  | cons x s ih =>
    cases x with
    | up => exact (ih h).imp List.mem_of_mem_dropLast (List.mem_cons_of_mem _)
    | name b =>
      rcases ih h with h | h
      · rw [List.mem_append, List.mem_singleton] at h
        rcases h with h | rfl
        · exact .inl h
        · exact .inr List.mem_cons_self
      · exact .inr (List.mem_cons_of_mem _ h)

variable [DecidableEq α]

/-- The directory reached from `root`. -/
def Relative.from (r : Relative α) (root : List α) : List α :=
  root.take (root.length - r.ups) ++ r.names

theorem Relative.from_push (r : Relative α) (root : List α) (x : Segment α) :
    (r.push x).from root = walk (r.from root) [x] := by
  cases x with
  | up =>
    rw [Relative.push, walk, walk, Relative.from]
    split_ifs with hnil
    · rw [Relative.from, hnil, List.append_nil, List.append_nil, List.dropLast_eq_take,
        List.length_take, List.take_take]
      simp only
      congr 1
      omega
    · rw [Relative.from, List.dropLast_append_of_ne_nil hnil]
  | name a => exact (List.append_assoc _ _ _).symm

/-- Walking along a path is going up, and then down. -/
theorem walk_eq (root : List α) (s : List (Segment α)) : walk root s = (reduce s).from root := by
  have hpush : ∀ r : Relative α, walk (r.from root) s = (s.foldl Relative.push r).from root := by
    induction s with
    | nil => exact fun _ => rfl
    | cons x s ih =>
      intro r
      rw [List.foldl_cons, ← ih, r.from_push, ← walk_append, List.singleton_append]
  have := hpush ⟨0, []⟩
  rwa [Relative.from, Nat.sub_zero, List.take_length, List.append_nil] at this

/-- A path leads into the directory `root ++ t` if the names it goes down begin with those
    that lead there, from where it turns. -/
theorem append_isPrefix_walk_iff (root t : List α) (s : List (Segment α)) :
    root ++ t <+: walk root s ↔
      root.drop (root.length - (reduce s).ups) ++ t <+: (reduce s).names := by
  rw [walk_eq, Relative.from]
  conv_lhs => rw [← List.take_append_drop (root.length - (reduce s).ups) root, List.append_assoc]
  rw [List.take_append_drop, List.prefix_append_right_inj]

/-- A path that never goes above its start stays below it. -/
theorem isPrefix_walk {s : List (Segment α)} (h : (reduce s).ups = 0) (root : List α) :
    root <+: walk root s := by
  rw [walk_eq, Relative.from, h, Nat.sub_zero, List.take_length]
  exact List.prefix_append _ _

end Segments

/-! ## Paths as strings -/

/-- The bytes `/` and `.`. -/
def slash : UInt8 := 47
def dot : UInt8 := 46

/-- The parts of a string between slashes. -/
def splitSlash : List UInt8 → List (List UInt8)
  | [] => [[]]
  | c :: s => if c = slash then [] :: splitSlash s else (splitSlash s).modifyHead (c :: ·)

/-- Empty parts and `.` stay where they are. -/
def segment (part : List UInt8) : Option (Segment (List UInt8)) :=
  if part = [] ∨ part = [dot] then none else if part = [dot, dot] then some .up else some (.name part)

def segments (s : List UInt8) : List (Segment (List UInt8)) := (splitSlash s).filterMap segment

/-- The names on the way to the file of an absolute path. -/
def resolve (s : List UInt8) : List (List UInt8) := walk [] (segments s)

/-- The names as an absolute path. -/
def render (names : List (List UInt8)) : List UInt8 :=
  if names = [] then [slash] else names.flatMap (slash :: ·)

theorem splitSlash_ne_nil (s : List UInt8) : splitSlash s ≠ [] := by
  induction s with
  | nil => simp [splitSlash]
  | cons c s ih =>
    rw [splitSlash]
    split_ifs
    · exact List.cons_ne_nil _ _
    · cases h : splitSlash s with
      | nil => exact absurd h ih
      | cons x l => exact List.cons_ne_nil _ _

theorem splitSlash_append (s t : List UInt8) :
    splitSlash (s ++ slash :: t) = splitSlash s ++ splitSlash t := by
  induction s with
  | nil => simp [splitSlash]
  | cons c s ih =>
    rw [List.cons_append, splitSlash, splitSlash, ih]
    split_ifs
    · rfl
    · cases h : splitSlash s with
      | nil => exact absurd h (splitSlash_ne_nil s)
      | cons x l => rfl

theorem slash_not_mem {s x : List UInt8} (h : x ∈ splitSlash s) : slash ∉ x := by
  induction s generalizing x with
  | nil =>
    rw [splitSlash, List.mem_singleton] at h
    rw [h]
    exact List.not_mem_nil
  | cons c s ih =>
    rw [splitSlash] at h
    split_ifs at h with hc
    · rcases List.mem_cons.1 h with rfl | h
      · exact List.not_mem_nil
      · exact ih h
    · cases hs : splitSlash s with
      | nil => exact absurd hs (splitSlash_ne_nil s)
      | cons y l =>
        rw [hs, List.modifyHead_cons] at h
        rcases List.mem_cons.1 h with rfl | h
        · exact List.not_mem_cons_of_ne_of_not_mem (Ne.symm hc) (ih (hs ▸ List.mem_cons_self))
        · exact ih (hs ▸ List.mem_cons_of_mem _ h)

theorem segments_append (s t : List UInt8) :
    segments (s ++ slash :: t) = segments s ++ segments t := by
  rw [segments, splitSlash_append, List.filterMap_append, segments, segments]

/-- The names of a path have no slash. -/
theorem slash_not_mem_of_name {s x : List UInt8} (h : .name x ∈ segments s) : slash ∉ x := by
  obtain ⟨y, hy, he⟩ := List.mem_filterMap.1 h
  rw [segment] at he
  split_ifs at he
  · cases he
  · obtain rfl : y = x := by simpa using he
    exact slash_not_mem hy

theorem slash_not_mem_of_resolve {s x : List UInt8} (h : x ∈ resolve s) : slash ∉ x :=
  slash_not_mem_of_name ((mem_of_mem_walk h).resolve_left List.not_mem_nil)

/-- The bytes up to the first slash. -/
theorem takeWhile_name {x t : List UInt8} (hx : slash ∉ x) (ht : t = [] ∨ t.head? = some slash) :
    (x ++ t).takeWhile (· ≠ slash) = x := by
  rw [List.takeWhile_append_of_pos fun b hb => by simpa using ne_of_mem_of_not_mem hb hx]
  rcases ht with rfl | ht
  · simp
  · obtain ⟨b, t, rfl⟩ : ∃ b l, t = b :: l := by
      cases t with
      | nil => cases ht
      | cons b l => exact ⟨b, l, rfl⟩
    cases ht
    simp

theorem head?_flatMap (names : List (List UInt8)) :
    names.flatMap (slash :: ·) = [] ∨ (names.flatMap (slash :: ·)).head? = some slash := by
  cases names with
  | nil => exact .inl rfl
  | cons a names => exact .inr rfl

/-- A directory, as a string, is at the start of a path as far as its names are. -/
theorem flatMap_eq_append_iff {root names : List (List UInt8)} (hroot : ∀ x ∈ root, slash ∉ x)
    (hnames : ∀ x ∈ names, slash ∉ x) :
    (∃ t : List UInt8, names.flatMap (slash :: ·) = root.flatMap (slash :: ·) ++ t ∧
      (t = [] ∨ t.head? = some slash)) ↔ root <+: names := by
  constructor
  · rintro ⟨t, he, ht⟩
    induction root generalizing names with
    | nil => exact List.nil_prefix
    | cons a root ih =>
      rw [List.forall_mem_cons] at hroot
      cases names with
      | nil => simp at he
      | cons b names =>
        rw [List.forall_mem_cons] at hnames
        rw [List.flatMap_cons, List.flatMap_cons, List.cons_append, List.cons_append,
          List.cons_append, List.cons.injEq, List.append_assoc] at he
        have hrest : root.flatMap (slash :: ·) ++ t = [] ∨
            (root.flatMap (slash :: ·) ++ t).head? = some slash := by
          cases root with
          | nil => exact ht
          | cons c root => exact .inr rfl
        -- the first names end at the next slash
        have hab := congrArg (List.takeWhile (· ≠ slash)) he.2
        rw [takeWhile_name hnames.1 (head?_flatMap names), takeWhile_name hroot.1 hrest] at hab
        subst hab
        rw [List.prefix_cons_inj]
        exact ih hroot.2 hnames.2 (List.append_cancel_left he.2)
  · rintro ⟨rest, rfl⟩
    exact ⟨_, List.flatMap_append, head?_flatMap rest⟩

/-- A path, as a string, is a given directory, or lies below it, if its names do. -/
theorem render_isPrefix_iff {root names : List (List UInt8)} (hne : root ≠ [])
    (hroot : ∀ x ∈ root, slash ∉ x ∧ x ≠ []) (hnames : ∀ x ∈ names, slash ∉ x) :
    render names = render root ∨ render root ++ [slash] <+: render names ↔ root <+: names := by
  rw [← flatMap_eq_append_iff (fun x hx => (hroot x hx).1) hnames]
  obtain ⟨d, hd⟩ : ∃ d, root.flatMap (slash :: ·) = d := ⟨_, rfl⟩
  have hlen : 1 < d.length := by
    obtain ⟨a, root, rfl⟩ := List.exists_cons_of_ne_nil hne
    have := List.length_pos_iff.2 (hroot a List.mem_cons_self).2
    rw [← hd, List.flatMap_cons, List.length_append, List.length_cons]
    omega
  rw [render, render, if_neg hne, hd]
  by_cases hnil : names = []
  · -- the root is not below another directory
    rw [if_pos hnil, hnil, List.flatMap_nil]
    refine iff_of_false (not_or.2 ⟨fun h => ?_, fun h => ?_⟩) ?_
    · rw [← h] at hlen
      exact absurd hlen (by decide)
    · have := h.length_le
      rw [List.length_append, List.length_singleton] at this
      omega
    · rintro ⟨t, ht, -⟩
      rw [(List.append_eq_nil_iff.1 ht.symm).1] at hlen
      exact absurd hlen (by decide)
  · rw [if_neg hnil]
    constructor
    · rintro (h | ⟨t, ht⟩)
      · exact ⟨[], by rw [h, List.append_nil], .inl rfl⟩
      · exact ⟨slash :: t, by rw [← ht, List.append_assoc, List.singleton_append], .inr rfl⟩
    · rintro ⟨t, ht, rfl | hhead⟩
      · exact .inl (by rw [ht, List.append_nil])
      · obtain ⟨l, rfl⟩ := List.head?_eq_some_iff.1 hhead
        exact .inr ⟨l, by rw [ht, List.append_assoc, List.singleton_append]⟩

end LexicalPath
