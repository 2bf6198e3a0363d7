import Mathlib.Data.List.Basic

/-! Records written one after another and read back from the front, each by the
reader for its kind. A reader that refuses every piece of a record which is cut
short finds, in a stream cut anywhere, the records that are whole and no others.
It may have moved on in its input by then. -/
namespace Support.Records

variable {α β κ : Type}

theorem prefixCases {s front back : List β} (starts : s <+: front ++ back) :
    (s <+: front ∧ s ≠ front) ∨ ∃ t, s = front ++ t ∧ t <+: back := by
  by_cases inside : s <+: front ∧ s ≠ front
  · exact .inl inside
  · have past : front <+: s := by
      rcases List.prefix_or_prefix_of_prefix starts (List.prefix_append _ _) with before | after
      · have whole : s = front := not_not.mp fun differ => inside ⟨before,differ⟩
        exact whole ▸ List.prefix_rfl
      · exact after
    obtain ⟨t,split⟩ := past
    subst split
    exact .inr ⟨t,rfl,(List.prefix_append_right_inj _).mp starts⟩

/- A reader returns a record, or refuses, and leaves its input somewhere. -/
structure Codec (α β κ : Type) where
  kind : α → κ
  put : α → List β
  get : κ → List β → Option α × List β

namespace Codec

variable (c : Codec α β κ)

def stream (records : List α) : List β := (records.map c.put).flatten

/- The readers are tried in order until one refuses: what was read, the kinds that
are left and the input that the last reader leaves. -/
def read : List κ → List β → List α × List κ × List β
  | [], input => ([],[],input)
  | k::ks, input =>
    match c.get k input with
    | (none,rest) => ([],k::ks,rest)
    | (some a,rest) =>
      let (as,left,rest) := read ks rest
      (a::as,left,rest)

/- `leaves` says what a reader that refuses a piece of a record leaves of it. -/
structure Sound (good : α → Prop) (leaves : α → List β → List β) : Prop where
  back : ∀ a rest, good a → c.get (c.kind a) (c.put a ++ rest) = (some a,rest)
  short : ∀ a q, good a → q <+: c.put a → q ≠ c.put a → c.get (c.kind a) q = (none,leaves a q)

/- What is left of the piece behind a cut, where the first of the records that are
left is refused. -/
def remains (leaves : α → List β → List β) : List α → List β → List β
  | [], piece => piece
  | a::_, piece => leaves a piece

/- The records of a stream up to a place where it is cut, and the piece behind them. -/
structure Cut (records whole left : List α) (piece : List β) : Prop where
  split : records = whole ++ left
  done : left = [] → piece = []
  broken : ∀ a later, left = a::later → piece <+: c.put a ∧ piece ≠ c.put a

variable {c} {good : α → Prop} {leaves : α → List β → List β}

@[simp] theorem streamNil : c.stream [] = [] := rfl

@[simp] theorem streamCons (a : α) (records : List α) : c.stream (a::records) = c.put a ++ c.stream records := rfl

theorem readWhole (sound : c.Sound good leaves) {records : List α} (fits : ∀ a ∈ records, good a) (ks : List κ)
    (rest : List β) : c.read (records.map c.kind ++ ks) (c.stream records ++ rest) =
      (records ++ (c.read ks rest).1,(c.read ks rest).2) := by
  induction records with
  | nil => rfl
  | cons a records ih =>
    have first := sound.back a (c.stream records ++ rest) (fits a List.mem_cons_self)
    have later := ih (fun b mem => fits b (List.mem_cons_of_mem a mem))
    simp only [List.map_cons,List.cons_append,streamCons,List.append_assoc,read,first,later]

/- Every beginning of a stream ends after its records or inside the next one. -/
theorem cutExists (records : List α) {s : List β} (cut : s <+: c.stream records) :
    ∃ whole left piece, s = c.stream whole ++ piece ∧ Cut c records whole left piece := by
  induction records generalizing s with
  | nil =>
    have empty : s = [] := List.prefix_nil.mp cut
    exact ⟨[],[],[],empty,rfl,fun _ => rfl,nofun⟩
  | cons a records ih =>
    rw [streamCons] at cut
    rcases prefixCases cut with inside | ⟨t,split,rest⟩
    · refine ⟨[],a::records,s,rfl,rfl,nofun,?_⟩
      intro b later same
      cases same
      exact inside
    · obtain ⟨whole,left,piece,split',found⟩ := ih rest
      subst split split'
      exact ⟨a::whole,left,piece,by simp,by rw [found.split]; rfl,found.done,found.broken⟩

theorem readPiece (sound : c.Sound good leaves) {records whole left : List α} {piece : List β}
    (fits : ∀ a ∈ records, good a) (cut : Cut c records whole left piece) :
    c.read (records.map c.kind) (c.stream whole ++ piece) = (whole,left.map c.kind,remains leaves left piece) := by
  have kinds : records.map c.kind = whole.map c.kind ++ left.map c.kind := by
    rw [cut.split,List.map_append]
  have refused : c.read (left.map c.kind) piece = ([],left.map c.kind,remains leaves left piece) := by
    cases left with
    | nil => rfl
    | cons a later =>
      obtain ⟨starts,proper⟩ := cut.broken a later rfl
      have mem : a ∈ records := by simp [cut.split]
      simp only [List.map_cons,read,sound.short a piece (fits a mem) starts proper,remains]
  rw [kinds,readWhole sound (fun a mem => fits a (by simp [cut.split,mem])),refused,List.append_nil]

theorem readCut (sound : c.Sound good leaves) {records : List α} (fits : ∀ a ∈ records, good a) {s : List β}
    (cut : s <+: c.stream records) : ∃ whole left piece, s = c.stream whole ++ piece ∧
      Cut c records whole left piece ∧
        c.read (records.map c.kind) s = (whole,left.map c.kind,remains leaves left piece) := by
  obtain ⟨whole,left,piece,split,found⟩ := cutExists records cut
  rw [split]
  exact ⟨whole,left,piece,rfl,found,readPiece sound fits found⟩

/- No stream says two things, and none starts another of the same kinds. -/
theorem streamsApart (sound : c.Sound good leaves) {records records' : List α} (fits : ∀ a ∈ records, good a)
    (fits' : ∀ a ∈ records', good a) (kinds : records.map c.kind = records'.map c.kind)
    (starts : c.stream records <+: c.stream records') : records = records' := by
  obtain ⟨rest,split⟩ := starts
  have one := readWhole sound fits [] rest
  have two := readWhole sound fits' [] []
  simp only [List.append_nil] at one two
  rw [split,kinds,two] at one
  simpa [read] using (Prod.mk.inj one).1.symm

end Codec
end Support.Records
