import KVStorage.SkipListImage
import KVStorage.Support.Mirrors

/-! Which node store an image holds. Every node has a place of its own among the
arena's answers, apart from what the arena gave to others, and the image follows
the store through every primitive: key, next, setNext and newNode. -/
namespace KVStorage.SkipList

open Support

/- operator new[] gives no null pointer and stays inside the address space. -/
def Addressed (operatorNew : Arena.OperatorNew) : Prop :=
  ∀ heap size res, operatorNew heap size = some res → 0 < res ∧ res+size ≤ 2^64

def Untroubled (_ : Fault) : Prop := False

def Lies (places : List Region) (x a : Nat) : Prop := (places[x]?).map Region.base = some a

structure Written {Key : Type} (l : Layout Key) (places : List Region) (memory : Memory UInt8) (n : Node Key)
    (r : Region) : Prop where
  size : r.size = l.nodeBytes n.nexts_.length
  key : memory.load (l.keyOf r.base) = some (l.bytes n.key)
  cells : ∀ i y, n.nexts_[i]? = some (some y) →
    ∃ b, Option.Rel (Lies places) y b ∧ memory.load (l.cell r.base i) = some (pointerBytes b)

structure Housed {Key : Type} (l : Layout Key) (places : List Region) (others : List Other) (m : SkipList Key)
    (w : Image) : Prop where
  count : places.length = m.nodes.length
  height : w.max_height_ = m.max_height_
  rnd : w.rnd_ = m.rnd_
  arena : Arena.Placed w.use
  high : ∀ b ∈ w.use.state.heap, 0 < b.base ∧ b.stop ≤ 2^64
  split : (w.use.issued.map Arena.Issued.region).Perm (places ++ others.map Other.region)
  aligned : ∀ r ∈ places, r.base % 8 = 0
  nodes : ∀ (x : Ptr) n r, m.nodes[x]? = some n → places[x]? = some r → Written l places w.memory n r
  kept : ∀ o ∈ others, w.memory.view o.region = o.data

structure Laid {Key : Type} (l : Layout Key) (places : List Region) (others : List Other) (m : SkipList Key)
    (w : Image) : Prop extends Housed l places others m w where
  head : Lies places head_ w.head_

section Geometry

variable {Key : Type} (l : Layout Key) (a : Ptr)

theorem keyWithin (height : Nat) : (l.keyOf a).Within ⟨a,l.nodeBytes height⟩ := by
  simp only [Region.Within,Region.stop,Layout.keyOf,Layout.nodeBytes,Layout.sizeofNode,Layout.nextsOffset]
  omega

theorem cellWithin {n height : Nat} (inside : n < height) : (l.cell a n).Within ⟨a,l.nodeBytes height⟩ := by
  simp only [Region.Within,Region.stop,Layout.cell,Layout.nodeBytes,Layout.sizeofNode,Arena.sizeofPointer]
  omega

theorem cellKeyApart (n : Nat) : (l.cell a n).Apart (l.keyOf a) := by
  simp only [Region.Apart,Region.stop,Layout.cell,Layout.keyOf,Layout.nextsOffset]
  omega

theorem cellsApart {n i : Nat} (differ : n ≠ i) : (l.cell a n).Apart (l.cell a i) := by
  simp only [Region.Apart,Region.stop,Layout.cell,Arena.sizeofPointer]
  omega

theorem nodePositive (height : Nat) : 0 < l.nodeBytes height := by
  simp only [Layout.nodeBytes,Layout.sizeofNode,Arena.sizeofPointer]
  omega

theorem nodeSized {height : Nat} (low : height ≤ s_max_height_) :
    (Arena.Call.allocateAligned (l.nodeBytes height)).Sized := by
  have small := l.small
  have positive := nodePositive l height
  refine ⟨positive,?_⟩
  simp only [Arena.Call.bytes,Layout.nodeBytes,Layout.sizeofNode,Layout.nextsOffset,Arena.sizeofPointer,
    s_max_height_] at *
  omega

end Geometry

theorem pointerBack {x : Option Ptr} (address : ∀ a, x = some a → 0 < a ∧ a < 2^64) :
    pointerOf (pointerBytes x) = x := by
  cases x with
  | none => rfl
  | some a =>
    obtain ⟨positive,fits⟩ := address a rfl
    have value : Words.littleEndian (pointerBytes (some a)) = a := by
      rw [pointerBytes,encodeFixed64Value]
      exact Nat.mod_eq_of_lt fits
    rw [pointerOf,value]
    exact if_neg (Nat.ne_of_gt positive)

theorem placesApart {rs : List Region} (apart : rs.Pairwise Region.Apart) {i j : Nat} {r s : Region}
    (here : rs[i]? = some r) (there : rs[j]? = some s) (differ : i ≠ j) : r.Apart s := by
  obtain ⟨low,same⟩ := List.getElem?_eq_some_iff.mp here
  obtain ⟨low',same'⟩ := List.getElem?_eq_some_iff.mp there
  subst same same'
  rcases Nat.lt_or_gt_of_ne differ with less | more
  · exact List.pairwise_iff_getElem.mp apart i j low low' less
  · exact Region.apartSymm (List.pairwise_iff_getElem.mp apart j i low' low more)

section Places

variable {places : List Region} {x a : Nat}

theorem atPlace (here : Lies places x a) : ∃ r, places[x]? = some r ∧ r.base = a := by
  simpa [Lies] using here

theorem atMore (here : Lies places x a) (more : List Region) : Lies (places ++ more) x a := by
  obtain ⟨r,found,base⟩ := atPlace here
  obtain ⟨low,_⟩ := List.getElem?_eq_some_iff.mp found
  rw [Lies,List.getElem?_append_left low]
  exact here

theorem relMore {y b : Option Ptr} (here : Option.Rel (Lies places) y b) (more : List Region) :
    Option.Rel (Lies (places ++ more)) y b := by
  cases here with
  | none => exact .none
  | some here => exact .some (atMore here more)

end Places

section Reading

variable {Key : Type} {l : Layout Key} {places : List Region} {others : List Other} {m : SkipList Key} {w : Image}
  {x a : Nat}

theorem writtenKept {memory memory' : Memory UInt8} {n : Node Key} {r : Region}
    (old : Written l places memory n r) (same : memory'.view r = memory.view r) (more : List Region) :
    Written l (places ++ more) memory' n r := by
  have whole : r = ⟨r.base,l.nodeBytes n.nexts_.length⟩ := by rw [← old.size]
  have part : ∀ p : Region, p.Within ⟨r.base,l.nodeBytes n.nexts_.length⟩ → memory'.load p = memory.load p := by
    intro p within
    rw [← whole] at within
    rw [Memory.load,Memory.load,Memory.viewPart within same]
  have key : memory'.load (l.keyOf r.base) = some (l.bytes n.key) := by
    rw [part _ (keyWithin l r.base _)]
    exact old.key
  have cells : ∀ i y, n.nexts_[i]? = some (some y) →
      ∃ b, Option.Rel (Lies (places ++ more)) y b ∧ memory'.load (l.cell r.base i) = some (pointerBytes b) := by
    intro i y here
    obtain ⟨b,target,loaded⟩ := old.cells i y here
    have inside : i < n.nexts_.length := (List.getElem?_eq_some_iff.mp here).1
    rw [part _ (cellWithin l r.base inside)]
    exact ⟨b,relMore target more,loaded⟩
  exact ⟨old.size,key,cells⟩

theorem laidNode (laid : Laid l places others m w) {n : Node Key} (found : m.nodes[x]? = some n) :
    ∃ r, places[x]? = some r ∧ Written l places w.memory n r := by
  obtain ⟨low,_⟩ := List.getElem?_eq_some_iff.mp found
  rw [← laid.count] at low
  have here : places[x]? = some places[x] := List.getElem?_eq_getElem low
  exact ⟨_,here,laid.nodes x n _ found here⟩

theorem laidApart (laid : Laid l places others m w) : (places ++ others.map Other.region).Pairwise Region.Apart :=
  (laid.split.pairwise_iff Region.apartSymm).mp laid.arena.sound.issuedApart

theorem laidInside (laid : Laid l places others m w) {r : Region} (mem : r ∈ places) :
    ∃ b ∈ w.use.state.heap, r.Within b :=
  laid.arena.sound.inside r (laid.split.mem_iff.mpr (List.mem_append_left _ mem))

theorem laidSize (laid : Laid l places others m w) {r : Region} (here : places[x]? = some r) : 0 < r.size := by
  obtain ⟨low,_⟩ := List.getElem?_eq_some_iff.mp here
  rw [laid.count] at low
  rw [(laid.nodes x _ r (List.getElem?_eq_getElem low) here).size]
  exact nodePositive l _

theorem laidAddress (laid : Laid l places others m w) (here : Lies places x a) : 0 < a ∧ a < 2^64 := by
  obtain ⟨r,found,base⟩ := atPlace here
  obtain ⟨b,mem,within⟩ := laidInside laid (List.mem_of_getElem? found)
  have positive := laidSize laid found
  have high := laid.high b mem
  subst base
  simp only [Region.Within,Region.stop] at *
  omega

/- Pointers are compared as addresses. -/
theorem laidSame (laid : Laid l places others m w) {x' a' : Nat} (here : Lies places x a) (there : Lies places x' a') :
    x = x' ↔ a = a' := by
  obtain ⟨r,found,base⟩ := atPlace here
  obtain ⟨r',found',base'⟩ := atPlace there
  constructor
  · intro same
    subst same
    rw [← base,← base',Option.some.inj (found.symm.trans found')]
  · intro same
    by_contra differ
    have apart := placesApart (List.pairwise_append.mp (laidApart laid)).1 found found' differ
    have positive := laidSize laid found
    have positive' := laidSize laid found'
    subst base base'
    simp only [Region.Apart,Region.stop] at apart
    omega

theorem nodeFound {n : Node Key} (ran : m.node x = .ok n) : m.nodes[x]? = some n := by
  unfold node at ran
  split at ran
  · rename_i found
    cases ran
    exact found
  · cases ran

/- A node that is read is written where it lies. -/
theorem nodeWritten (laid : Laid l places others m w) (here : Lies places x a) {n : Node Key}
    (ran : m.node x = .ok n) : ∃ r, places[x]? = some r ∧ r.base = a ∧ Written l places w.memory n r := by
  obtain ⟨r,placed,written⟩ := laidNode laid (nodeFound ran)
  obtain ⟨r',placed',base⟩ := atPlace here
  cases Option.some.inj (placed.symm.trans placed')
  exact ⟨r,placed,base,written⟩

theorem nodeMirrors (laid : Laid l places others m w) (here : Lies places x a) :
    Mirrors Untroubled (fun n k => k = n.key) (m.node x) (w.key l a) := by
  intro n ran
  obtain ⟨r,_,base,written⟩ := nodeWritten laid here ran
  have loaded : w.key l a = .ok n.key := by
    rw [Image.key,← base,written.key,Option.bind_some,l.readBytes]
  exact .inl ⟨_,loaded,rfl⟩

theorem nextMirrors (laid : Laid l places others m w) (here : Lies places x a) (i : Nat) :
    Mirrors Untroubled (Option.Rel (Lies places)) (m.next x i) (w.next l a i) := by
  intro y ran
  obtain ⟨n,first,last⟩ := Machine.okBind ran
  have cell : n.nexts_[i]? = some (some y) := by
    split at last
    · rename_i cell
      cases last
      exact cell
    · cases last
  obtain ⟨r,_,base,written⟩ := nodeWritten laid here first
  obtain ⟨b,target,loaded⟩ := written.cells i y cell
  have back : pointerOf (pointerBytes b) = b := by
    refine pointerBack ?_
    intro c same
    subst same
    cases target with
    | some there => exact laidAddress laid there
  have read : w.next l a i = .ok b := by
    rw [Image.next,← base,loaded]
    exact congrArg Except.ok back
  exact .inl ⟨b,read,target⟩

end Reading

section Storing

variable {Key : Type} {l : Layout Key} {places : List Region} {others : List Other} {m m' : SkipList Key} {w : Image}
  {x a : Nat}

/- What a store inside one place leaves alone. -/
theorem storeElsewhere (laid : Laid l places others m w) {r : Region} (here : places[x]? = some r) {base : Ptr}
    {data : Bytes} (within : Region.Within ⟨base,data.length⟩ r) :
    (∀ z s, places[z]? = some s → z ≠ x → (w.memory.store base data).view s = w.memory.view s) ∧
      ∀ o ∈ others, (w.memory.store base data).view o.region = o.data := by
  have parts := List.pairwise_append.mp (laidApart laid)
  constructor
  · intro z s there differ
    have apart := placesApart parts.1 here there differ.symm
    exact Memory.viewApart (Region.apartBoth apart within (Region.withinRefl s))
  · intro o mem
    have apart := parts.2.2 r (List.mem_of_getElem? here) o.region (List.mem_map_of_mem mem)
    rw [Memory.viewApart (Region.apartBoth apart within (Region.withinRefl _))]
    exact laid.kept o mem

/- A node with one of its cells stored to. -/
theorem cellWritten {node : Node Key} {r : Region} (written : Written l places w.memory node r) {n : Nat}
    (inside : n < node.nexts_.length) {y b : Option Ptr} (target : Option.Rel (Lies places) y b) :
    Written l places (w.setNext l r.base n b).memory {node with nexts_ := node.nexts_.set n (some y)} r := by
  have key : (w.setNext l r.base n b).memory.load (l.keyOf r.base) = some (l.bytes node.key) := by
    rw [Image.setNext,Memory.loadApart (cellKeyApart l r.base n)]
    exact written.key
  refine ⟨by simpa using written.size,key,?_⟩
  intro i z cell
  by_cases same : n = i
  · subst same
    have held : some y = some z := by simpa [List.getElem?_set,inside] using cell
    cases held
    exact ⟨b,target,Memory.loadStored⟩
  · rw [List.getElem?_set_ne same] at cell
    obtain ⟨c,target',loaded⟩ := written.cells i z cell
    rw [Image.setNext,Memory.loadApart (cellsApart l r.base same)]
    exact ⟨c,target',loaded⟩

theorem setNextLaid (laid : Laid l places others m w) (here : Lies places x a) {n : Nat} {y b : Option Ptr}
    (target : Option.Rel (Lies places) y b) (stored : m.setNext x n y = .ok m') :
    Laid l places others m' (w.setNext l a n b) := by
  obtain ⟨node,first,last⟩ := Machine.okBind stored
  obtain ⟨r,placed,base,written⟩ := nodeWritten laid here first
  subst base
  by_cases inside : n < node.nexts_.length
  · rw [if_pos inside] at last
    cases last
    have whole : r = ⟨r.base,l.nodeBytes node.nexts_.length⟩ := by rw [← written.size]
    have within : Region.Within ⟨(l.cell r.base n).base,(pointerBytes b).length⟩ r := by
      rw [whole]
      exact cellWithin l r.base inside
    obtain ⟨nodes,kept⟩ := storeElsewhere laid placed within
    have count : places.length = (m.nodes.set x {node with nexts_ := node.nexts_.set n (some y)}).length := by
      rw [List.length_set]
      exact laid.count
    refine ⟨⟨count,laid.height,laid.rnd,laid.arena,laid.high,laid.split,laid.aligned,?_,kept⟩,laid.head⟩
    intro z n' s found' there
    by_cases same : z = x
    · subst same
      have unique : s = r := Option.some.inj (there.symm.trans placed)
      subst unique
      have low : z < m.nodes.length := (List.getElem?_eq_some_iff.mp (nodeFound first)).1
      rw [List.getElem?_set_self low] at found'
      cases found'
      exact cellWritten written inside target
    · rw [List.getElem?_set_ne (Ne.symm same)] at found'
      have old := writtenKept (laid.nodes z n' s found' there) (nodes z s there same) []
      rw [List.append_nil] at old
      exact old
  · rw [if_neg inside] at last
    cases last

end Storing
section Allocating

variable {Key : Type} {l : Layout Key} {places : List Region} {others : List Other} {m : SkipList Key} {w : Image}
  {operatorNew : Arena.OperatorNew}

structure Requested (w : Image) (call : Arena.Call) (w' : Image) (res : Nat) : Prop where
  arena : Arena.Placed w'.use
  high : ∀ b ∈ w'.use.state.heap, 0 < b.base ∧ b.stop ≤ 2^64
  issued : w'.use.issued = w.use.issued ++ [⟨call,res⟩]
  aligned : call.Aligned → res % 8 = 0
  rest : w' = {w with use := w'.use}

theorem heapHigh (addressed : Addressed operatorNew) {s : Arena.State} {call : Arena.Call} {out : Nat × Arena.State}
    (serves : Arena.Serves operatorNew s call out) (high : ∀ b ∈ s.heap, 0 < b.base ∧ b.stop ≤ 2^64) :
    ∀ b ∈ out.2.heap, 0 < b.base ∧ b.stop ≤ 2^64 := by
  cases serves with
  | carved fits => exact high
  | dedicated tight big got => exact Snoc.all high (addressed _ _ _ got)
  | refilled tight small got => exact Snoc.all high (addressed _ _ _ got)

theorem requestCases (honest : Arena.Honest operatorNew) (addressed : Addressed operatorNew)
    (arena : Arena.Placed w.use) (high : ∀ b ∈ w.use.state.heap, 0 < b.base ∧ b.stop ≤ 2^64) {call : Arena.Call}
    (sized : call.Sized) :
    (w.request operatorNew call = .error .badAlloc ∧ call.Refuses operatorNew w.use.state) ∨
      ∃ w' res, w.request operatorNew call = .ok (w',res) ∧ Requested w call w' res := by
  rcases Arena.serveCases (Arena.honestAligned honest) w.use.state sized with
    ⟨failed,refused⟩ | ⟨⟨res,state⟩,served,aligned,serves⟩
  · exact .inl ⟨by simp only [Image.request,failed,bind,Except.bind],refused⟩
  · have ran : w.use.step operatorNew call = .ok ⟨state,w.use.issued ++ [⟨call,res⟩]⟩ := by
      simp only [Arena.Use.step,served,bind,Except.bind]
    have placed : Arena.Placed ⟨state,w.use.issued ++ [⟨call,res⟩]⟩ := by
      rcases Arena.stepPlaced honest arena sized with ⟨failed,_⟩ | ⟨v,_,ran',_,placed⟩
      · cases failed.symm.trans ran
      · cases ran'.symm.trans ran
        exact placed
    have same : w.request operatorNew call = .ok ({w with use := ⟨state,w.use.issued ++ [⟨call,res⟩]⟩},res) := by
      simp only [Image.request,served,bind,Except.bind]
    exact .inr ⟨_,res,same,placed,heapHigh addressed serves high,rfl,aligned,rfl⟩

/- The answer is apart from every place and from what others were given. -/
theorem requestedApart (housed : Housed l places others m w) {call : Arena.Call} {w' : Image} {res : Nat}
    (requested : Requested w call w' res) :
    (∀ r ∈ places, r.Apart ⟨res,call.bytes⟩) ∧ ∀ o ∈ others, o.region.Apart ⟨res,call.bytes⟩ := by
  have apart := requested.arena.sound.issuedApart
  simp only [Arena.Use.pool,Arena.State.pool,requested.issued,List.map_append] at apart
  have before := (List.pairwise_append.mp apart).2.2
  have each : ∀ r ∈ places ++ others.map Other.region, r.Apart ⟨res,call.bytes⟩ := by
    intro r mem
    exact before r (housed.split.mem_iff.mpr mem) _ (by simp [Arena.Issued.region])
  refine ⟨fun r mem => each r (List.mem_append_left _ mem),?_⟩
  intro o mem
  exact each _ (List.mem_append_right _ (List.mem_map_of_mem mem))

theorem newNodeHoused (housed : Housed l places others m w) (key : Key) {height res : Nat} {w' : Image}
    (requested : Requested w (.allocateAligned (l.nodeBytes height)) w' res) :
    Housed l (places ++ [⟨res,l.nodeBytes height⟩]) others (m.newNode key height).1
      {w' with memory := w'.memory.store res (l.bytes key)} := by
  have apart := requestedApart housed requested
  simp only [Arena.Call.bytes] at apart
  obtain ⟨placesApart,othersApart⟩ := apart
  obtain ⟨arena,high,issued,aligned,rest⟩ := requested
  have count : (places ++ [(⟨res,l.nodeBytes height⟩ : Region)]).length = (m.newNode key height).1.nodes.length := by
    simp [newNode,housed.count]
  have split : (w'.use.issued.map Arena.Issued.region).Perm
      ((places ++ [⟨res,l.nodeBytes height⟩]) ++ others.map Other.region) := by
    rw [issued,List.map_append]
    refine (housed.split.append_right _).trans ?_
    simp only [List.append_assoc]
    exact List.perm_append_comm.append_left places
  have within : ∀ s : Region, s.Apart ⟨res,l.nodeBytes height⟩ →
      (w'.memory.store res (l.bytes key)).view s = w.memory.view s := by
    intro s apart
    rw [rest]
    refine Memory.viewApart ?_
    rw [l.sized]
    exact Region.apartSymm (Region.apartInside apart (keyWithin l res height))
  have nodes : ∀ (x : Ptr) n r, (m.newNode key height).1.nodes[x]? = some n →
      (places ++ [(⟨res,l.nodeBytes height⟩ : Region)])[x]? = some r →
      Written l (places ++ [⟨res,l.nodeBytes height⟩]) (w'.memory.store res (l.bytes key)) n r := by
    intro x n r found here
    rcases Nat.lt_or_ge x m.nodes.length with old | new
    · have here' : places[x]? = some r := by rwa [List.getElem?_append_left (by rw [housed.count]; exact old)] at here
      have found' : m.nodes[x]? = some n := by
        simpa [newNode,List.getElem?_append_left old] using found
      exact writtenKept (housed.nodes x n r found' here') (within r (placesApart r (List.mem_of_getElem? here'))) _
    · simp only [newNode,List.getElem?_append_right new,List.getElem?_singleton] at found
      rw [List.getElem?_append_right (by rw [housed.count]; exact new),List.getElem?_singleton,housed.count] at here
      split at found
      · rename_i last
        rw [if_pos last] at here
        cases found
        cases here
        have stored : (w'.memory.store res (l.bytes key)).load (l.keyOf res) = some (l.bytes key) := by
          rw [Layout.keyOf,← l.sized key]
          exact Memory.loadStored
        exact ⟨by simp,stored,by simp [List.getElem?_replicate]⟩
      · cases found
  have kept : ∀ o ∈ others, (w'.memory.store res (l.bytes key)).view o.region = o.data := by
    intro o mem
    rw [within _ (othersApart o mem)]
    exact housed.kept o mem
  have same : w'.max_height_ = m.max_height_ := by
    rw [rest]
    exact housed.height
  have drawn : w'.rnd_ = m.rnd_ := by
    rw [rest]
    exact housed.rnd
  exact ⟨count,same,drawn,arena,high,split,Snoc.all housed.aligned (aligned trivial),nodes,kept⟩

theorem allocateLaid (laid : Laid l places others m w) {call : Arena.Call} {w' : Image} {res : Nat}
    (requested : Requested w call w' res) :
    Laid l places (others ++ [⟨res,w'.memory.view ⟨res,call.bytes⟩⟩]) m w' := by
  obtain ⟨arena,high,issued,_,rest⟩ := requested
  have split : (w'.use.issued.map Arena.Issued.region).Perm
      (places ++ (others ++ [(⟨res,w'.memory.view ⟨res,call.bytes⟩⟩ : Other)]).map Other.region) := by
    rw [issued,List.map_append,List.map_append,← List.append_assoc]
    refine laid.split.append ?_
    simp [Arena.Issued.region,Other.region]
  have memory : w'.memory = w.memory := by rw [rest]
  have nodes : ∀ (x : Ptr) n r, m.nodes[x]? = some n → places[x]? = some r → Written l places w'.memory n r := by
    rw [memory]
    exact laid.nodes
  have kept : ∀ o ∈ others, w'.memory.view o.region = o.data := by
    rw [memory]
    exact laid.kept
  have head : Lies places head_ w'.head_ := by
    rw [rest]
    exact laid.head
  have same : w'.max_height_ = m.max_height_ := by
    rw [rest]
    exact laid.height
  have drawn : w'.rnd_ = m.rnd_ := by
    rw [rest]
    exact laid.rnd
  exact ⟨⟨laid.count,same,drawn,arena,high,split,laid.aligned,nodes,Snoc.all kept (by simp [Other.region])⟩,head⟩

theorem setKeeps {β : Type} {f : Other → β} {j : Nat} {o o' : Other} (own : others[j]? = some o) (same : f o' = f o) :
    (others.set j o').map f = others.map f := by
  obtain ⟨low,held⟩ := List.getElem?_eq_some_iff.mp own
  subst held
  rw [List.map_set,same,← List.map_set,List.set_getElem_self]

/- A store of another user into its own memory. -/
theorem writeLaid (laid : Laid l places others m w) {j offset : Nat} {o : Other} {data : Bytes}
    {left : List (Option UInt8)} (own : others[j]? = some o)
    (written : Buffer.write o.data offset (data.map some) = some left) :
    Laid l places (others.set j {o with data := left}) m
      {w with memory := w.memory.store (o.base+offset) data} := by
  have mem : o ∈ others := List.mem_of_getElem? own
  have whole : w.memory.view o.region = o.data := laid.kept o mem
  have view : (w.memory.store (o.base+offset) data).view o.region = left := by
    rw [← whole] at written
    exact Memory.viewWritten written
  have within : Region.Within ⟨o.base+offset,data.length⟩ o.region := by
    unfold Buffer.write at written
    split at written
    · rename_i fits
      rw [List.length_map] at fits
      simp only [Region.Within,Region.stop,Other.region]
      omega
    · cases written
  have size : left.length = o.data.length := by
    rw [← view,Memory.viewLength]
    rfl
  have regions : (others.set j {o with data := left}).map Other.region = others.map Other.region :=
    setKeeps own (by simp only [Other.region,size])
  have parts := List.pairwise_append.mp (laidApart laid)
  have elsewhere : ∀ s : Region, s.Apart o.region →
      (w.memory.store (o.base+offset) data).view s = w.memory.view s := by
    intro s apart
    exact Memory.viewApart (Region.apartSymm (Region.apartInside apart within))
  have nodes : ∀ (x : Ptr) n r, m.nodes[x]? = some n → places[x]? = some r →
      Written l places (w.memory.store (o.base+offset) data) n r := by
    intro x n r found here
    have apart := parts.2.2 r (List.mem_of_getElem? here) o.region (List.mem_map_of_mem mem)
    have old := writtenKept (laid.nodes x n r found here) (elsewhere r apart) []
    rw [List.append_nil] at old
    exact old
  have kept : ∀ p ∈ others.set j {o with data := left},
      (w.memory.store (o.base+offset) data).view p.region = p.data := by
    intro p inside
    obtain ⟨i,here⟩ := List.mem_iff_getElem?.mp inside
    rw [List.getElem?_set] at here
    split at here
    · rename_i same
      split at here
      · cases here
        have region : (⟨o.base,left⟩ : Other).region = o.region := by simp only [Other.region,size]
        rw [region]
        exact view
      · cases here
    · rename_i differ
      have apart : p.region.Apart o.region := placesApart parts.2.1 (i := i) (j := j) (by simp [here]) (by simp [own])
        (Ne.symm differ)
      rw [elsewhere _ apart]
      exact laid.kept p (List.mem_of_getElem? here)
  have split : (w.use.issued.map Arena.Issued.region).Perm
      (places ++ (others.set j {o with data := left}).map Other.region) := by
    rw [regions]
    exact laid.split
  exact ⟨⟨laid.count,laid.height,laid.rnd,laid.arena,laid.high,split,laid.aligned,nodes,kept⟩,laid.head⟩

end Allocating

end KVStorage.SkipList
