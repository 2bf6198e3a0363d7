import Mathlib.Data.List.Basic

/-! Ranges of addresses, and pools that carve ranges out of blocks: one block is
carved from the front, a request may also get a block of its own, and a new
block takes over with the rest of the old one left unused. -/
namespace Support

structure Region where
  base : Nat
  size : Nat
  deriving DecidableEq, Repr

namespace Region

def stop (r : Region) : Nat := r.base + r.size

def Within (a b : Region) : Prop := b.base ≤ a.base ∧ a.stop ≤ b.stop

def Apart (a b : Region) : Prop := a.stop ≤ b.base ∨ b.stop ≤ a.base

theorem withinRefl (a : Region) : Within a a := ⟨Nat.le_refl _,Nat.le_refl _⟩

theorem withinTrans {a b c : Region} (ab : Within a b) (bc : Within b c) : Within a c :=
  ⟨Nat.le_trans bc.1 ab.1,Nat.le_trans ab.2 bc.2⟩

theorem apartSymm {a b : Region} (apart : Apart a b) : Apart b a := apart.symm

theorem apartInside {a b c : Region} (apart : Apart a b) (inside : Within c b) : Apart a c := by
  unfold Apart Within at *
  omega

theorem apartBoth {a b c d : Region} (apart : Apart a b) (left : Within c a) (right : Within d b) :
    Apart c d := apartSymm (apartInside (apartSymm (apartInside apart right)) left)

theorem apartDiffers {a b : Region} (apart : Apart a b) (positive : 0 < a.size) : a ≠ b := by
  intro same
  subst same
  unfold Apart stop at apart
  omega

/- The front of a region after a gap, and what is left behind it. -/
def taken (r : Region) (skip n : Nat) : Region := ⟨r.base+skip,n⟩

def left (r : Region) (n : Nat) : Region := ⟨r.base+n,r.size-n⟩

variable {r : Region} {skip n : Nat}

theorem takenWithin (fits : skip+n ≤ r.size) : Within (r.taken skip n) r := by
  simp only [Within,taken,stop]
  omega

theorem leftWithin (fits : n ≤ r.size) : Within (r.left n) r := by
  simp only [Within,left,stop]
  omega

theorem leftStop (fits : n ≤ r.size) : (r.left n).stop = r.stop := by
  simp only [left,stop]
  omega

theorem takenLeftApart (r : Region) (skip n : Nat) : Apart (r.taken skip n) (r.left (skip+n)) := by
  simp only [Apart,taken,left,stop]
  omega

end Region

/- Lists that grow at their end. -/
namespace Snoc

variable {α : Type} {l : List α} {a : α}

theorem all {P : α → Prop} (old : ∀ x ∈ l, P x) (new : P a) : ∀ x ∈ l ++ [a], P x := by
  intro x mem
  rcases List.mem_append.mp mem with before | last
  · exact old x before
  · cases List.mem_singleton.mp last
    exact new

theorem pairwise {R : α → α → Prop} (old : l.Pairwise R) (new : ∀ x ∈ l, R x a) : (l ++ [a]).Pairwise R := by
  exact List.pairwise_append.mpr ⟨old,List.pairwise_singleton R a,by simpa using new⟩

end Snoc

open Region

structure Pool where
  blocks : List Region
  issued : List Region
  free : Region

namespace Pool

def empty : Pool := ⟨[],[],⟨0,0⟩⟩

/- What one request does. Shared blocks all have one size. -/
inductive Step (shared : Nat) : Pool → Region → Pool → Prop where
  | carve {p skip n} (positive : 0 < n) (fits : skip+n ≤ p.free.size) :
      Step shared p (p.free.taken skip n)
        {p with issued := p.issued ++ [p.free.taken skip n], free := p.free.left (skip+n)}
  | dedicate {p b} (positive : 0 < b.size) (fresh : ∀ old ∈ p.blocks, Apart old b) :
      Step shared p b {p with blocks := p.blocks ++ [b], issued := p.issued ++ [b]}
  | refill {p b n} (positive : 0 < n) (fits : n < b.size) (size : b.size = shared)
      (fresh : ∀ old ∈ p.blocks, Apart old b) :
      Step shared p (b.taken 0 n) ⟨p.blocks ++ [b],p.issued ++ [b.taken 0 n],b.left n⟩

/- The free range ends the youngest block that was not given out whole. -/
def Current (shared : Nat) (p : Pool) : Prop :=
  (p.free = ⟨0,0⟩ ∧ ∀ b ∈ p.blocks, b ∈ p.issued) ∨
    ∃ front block back, p.blocks = front ++ block::back ∧ block.size = shared ∧ block ∉ p.issued ∧
      (∀ b ∈ back, b ∈ p.issued) ∧ block.base < p.free.base ∧ p.free.stop = block.stop

structure Sound (shared : Nat) (p : Pool) : Prop where
  blocksApart : p.blocks.Pairwise Apart
  inside : ∀ r ∈ p.issued, ∃ b ∈ p.blocks, Within r b
  issuedApart : p.issued.Pairwise Apart
  unissued : ∀ r ∈ p.issued, Apart r p.free
  current : Current shared p

variable {shared : Nat} {p q : Pool} {r : Region}

theorem emptySound (shared : Nat) : Sound shared empty :=
  ⟨.nil,by simp [empty],.nil,by simp [empty],.inl ⟨rfl,by simp [empty]⟩⟩

theorem insideSnoc {blocks issued : List Region} (old : ∀ r ∈ issued, ∃ b ∈ blocks, Within r b) (more : List Region)
    (new : ∃ b ∈ blocks ++ more, Within r b) : ∀ x ∈ issued ++ [r], ∃ b ∈ blocks ++ more, Within x b := by
  have kept : ∀ x ∈ issued, ∃ b ∈ blocks ++ more, Within x b := by
    intro x mem
    obtain ⟨b,hb,within⟩ := old x mem
    exact ⟨b,List.mem_append_left _ hb,within⟩
  exact Snoc.all kept new

/- Nothing issued lies in a block that is new. -/
theorem issuedFresh (sound : Sound shared p) {b : Region} (fresh : ∀ old ∈ p.blocks, Apart old b) :
    ∀ x ∈ p.issued, Apart x b := by
  intro x mem
  obtain ⟨old,hold,within⟩ := sound.inside x mem
  exact apartBoth (fresh old hold) within (withinRefl b)

theorem freeInside (sound : Sound shared p) : p.free = ⟨0,0⟩ ∨ ∃ b ∈ p.blocks, Within p.free b := by
  rcases sound.current with ⟨null,_⟩ | ⟨front,block,back,blocks,_,_,_,after,ends⟩
  · exact .inl null
  · have mem : block ∈ p.blocks := by simp [blocks]
    exact .inr ⟨block,mem,Nat.le_of_lt after,Nat.le_of_eq ends⟩

theorem freeFresh (sound : Sound shared p) {b : Region} (fresh : ∀ old ∈ p.blocks, Apart old b) :
    Apart b p.free := by
  rcases freeInside sound with null | ⟨old,hold,within⟩
  · rw [null]
    exact .inr (Nat.zero_le _)
  · exact apartInside (apartSymm (fresh old hold)) within

theorem carveSound (sound : Sound shared p) {skip n : Nat} (positive : 0 < n) (fits : skip+n ≤ p.free.size) :
    Sound shared {p with issued := p.issued ++ [p.free.taken skip n], free := p.free.left (skip+n)} := by
  have within : Within (p.free.taken skip n) p.free := takenWithin fits
  rcases sound.current with ⟨null,_⟩ | ⟨front,block,back,blocks,size,whole,behind,after,ends⟩
  · have nothing : p.free.size = 0 := by rw [null]
    omega
  · have mem : block ∈ p.blocks := by simp [blocks]
    have inBlock : Within p.free block := ⟨Nat.le_of_lt after,Nat.le_of_eq ends⟩
    have differs : block ≠ p.free.taken skip n := by
      intro same
      have bases := congrArg Region.base same
      simp only [taken] at bases
      omega
    have inside := insideSnoc sound.inside [] ⟨block,by simpa using mem,withinTrans within inBlock⟩
    rw [List.append_nil] at inside
    have issuedApart := Snoc.pairwise sound.issuedApart (fun x hx => apartInside (sound.unissued x hx) within)
    have unissued : ∀ x ∈ p.issued ++ [p.free.taken skip n], Apart x (p.free.left (skip+n)) :=
      Snoc.all (fun x mem => apartInside (sound.unissued x mem) (leftWithin fits)) (takenLeftApart p.free skip n)
    have current : Current shared {p with issued := p.issued ++ [p.free.taken skip n],
                                          free := p.free.left (skip+n)} := by
      have whole' : block ∉ p.issued ++ [p.free.taken skip n] := by simp [whole,differs]
      have behind' := fun b hb => List.mem_append_left [p.free.taken skip n] (behind b hb)
      have after' : block.base < p.free.base+(skip+n) := Nat.lt_of_lt_of_le after (Nat.le_add_right _ _)
      exact .inr ⟨front,block,back,blocks,size,whole',behind',after',(leftStop fits).trans ends⟩
    exact ⟨sound.blocksApart,inside,issuedApart,unissued,current⟩

theorem dedicateSound (sound : Sound shared p) {b : Region} (positive : 0 < b.size)
    (fresh : ∀ old ∈ p.blocks, Apart old b) :
    Sound shared {p with blocks := p.blocks ++ [b], issued := p.issued ++ [b]} := by
  have inside := insideSnoc sound.inside [b] ⟨b,by simp,withinRefl b⟩
  have unissued : ∀ x ∈ p.issued ++ [b], Apart x p.free := Snoc.all sound.unissued (freeFresh sound fresh)
  have current : Current shared {p with blocks := p.blocks ++ [b], issued := p.issued ++ [b]} := by
    rcases sound.current with ⟨null,all⟩ | ⟨front,block,back,blocks,size,whole,behind,after,ends⟩
    · have whole : ∀ x ∈ p.blocks ++ [b], x ∈ p.issued ++ [b] :=
        Snoc.all (fun x mem => List.mem_append_left _ (all x mem)) (by simp)
      exact .inl ⟨null,whole⟩
    · have differs : block ≠ b :=
        (apartDiffers (apartSymm (fresh block (by simp [blocks]))) positive).symm
      have behind' : ∀ x ∈ back ++ [b], x ∈ p.issued ++ [b] :=
        Snoc.all (fun x mem => List.mem_append_left _ (behind x mem)) (by simp)
      exact .inr ⟨front,block,back ++ [b],by simp [blocks],size,by simp [whole,differs],behind',after,ends⟩
  exact ⟨Snoc.pairwise sound.blocksApart fresh,inside,Snoc.pairwise sound.issuedApart (issuedFresh sound fresh),
    unissued,current⟩

theorem refillSound (sound : Sound shared p) {b : Region} {n : Nat} (positive : 0 < n) (fits : n < b.size)
    (size : b.size = shared) (fresh : ∀ old ∈ p.blocks, Apart old b) :
    Sound shared ⟨p.blocks ++ [b],p.issued ++ [b.taken 0 n],b.left n⟩ := by
  have within : Within (b.taken 0 n) b := takenWithin (by omega)
  have inside := insideSnoc sound.inside [b] ⟨b,by simp,within⟩
  have old := issuedFresh sound fresh
  have issuedApart := Snoc.pairwise sound.issuedApart (fun x hx => apartInside (old x hx) within)
  have unissued : ∀ x ∈ p.issued ++ [b.taken 0 n], Apart x (b.left n) := by
    have apart := takenLeftApart b 0 n
    rw [Nat.zero_add] at apart
    exact Snoc.all (fun x mem => apartInside (old x mem) (leftWithin (Nat.le_of_lt fits))) apart
  have whole : b ∉ p.issued ++ [b.taken 0 n] := by
    intro mem
    rcases List.mem_append.mp mem with before | last
    · exact apartDiffers (apartSymm (old b before)) (by omega) rfl
    · have sizes := congrArg Region.size (List.mem_singleton.mp last)
      simp only [taken] at sizes
      omega
  have current : Current shared ⟨p.blocks ++ [b],p.issued ++ [b.taken 0 n],b.left n⟩ :=
    .inr ⟨p.blocks,b,[],rfl,size,whole,by simp,Nat.lt_add_of_pos_right positive,leftStop (Nat.le_of_lt fits)⟩
  exact ⟨Snoc.pairwise sound.blocksApart fresh,inside,issuedApart,unissued,current⟩

theorem stepSound (sound : Sound shared p) (step : Step shared p r q) : Sound shared q := by
  cases step with
  | carve positive fits => exact carveSound sound positive fits
  | dedicate positive fresh => exact dedicateSound sound positive fresh
  | refill positive fits size fresh => exact refillSound sound positive fits size fresh

end Pool
end Support
