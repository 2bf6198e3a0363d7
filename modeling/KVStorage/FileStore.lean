import KVStorage.FileRoundTrip

/-! Many files written and read over and over, in any order and with any failures: what
a read that succeeds may return. -/
namespace KVStorage.Env

open Support

variable {σ : Type} {env : Env σ} {view : FileView σ}

def Aside (view : FileView σ) (fname : Bytes) (w w' : σ) : Prop :=
  ∀ other, other ≠ fname → view.content w' other = view.content w other

/- The rest of the contract: an operation acts on no file but its own, and what a
failed one leaves of that. An object for reading changes no file. -/
structure Framed (env : Env σ) (view : FileView σ) : Prop where
  creates : ∀ fname w s file w', env.newWritableFile fname w = ((s,file),w') → Aside view fname w w' ∧
    (s.ok = false → view.content w' fname = view.content w fname ∨ view.content w' fname = none ∨
      view.content w' fname = some [])
  appends : ∀ fname f w data s w', view.writing w fname f → f.append data w = (s,w') → Aside view fname w w'
  closes : ∀ fname f w s w', view.writing w fname f → f.close w = (s,w') → Aside view fname w w' ∧
    (s.ok = false → view.writing w' fname f ∧ ∀ old, view.content w fname = some old →
      ∃ left, view.content w' fname = some left ∧ left <+: old)
  destroys : ∀ fname f w, view.writing w fname f → Aside view fname w (f.destroy w)
  deletes : ∀ fname w, Aside view fname w (env.deleteFile fname w).2 ∧
    ((env.deleteFile fname w).1.ok = false → view.content (env.deleteFile fname w).2 fname = view.content w fname ∨
      view.content (env.deleteFile fname w).2 fname = none)
  opens : ∀ fname w, view.content (env.newSequentialFile fname w).2 = view.content w
  reads : ∀ fname w s f w', env.newSequentialFile fname w = ((s,some f),w') → s.ok = true →
    ∀ v, view.content (f.destroy v) = view.content v ∧ ∀ n, view.content (f.read n v).2 = view.content v

theorem asideTrans {fname : Bytes} {u v w : σ} (left : Aside view fname u v) (right : Aside view fname v w) :
    Aside view fname u w := fun other differ => (right other differ).trans (left other differ)

section Calls

variable {data fname : Bytes} {w w' : σ} {s : Status}

theorem readsKeep {f : SequentialFile σ} (keeps : ∀ v n, view.content (f.read n v).2 = view.content v) {u v : σ}
    {parts : List Bytes} (run : Machine.Run (Reads f) u parts v) : view.content v = view.content u := by
  induction run with
  | nil => rfl
  | @cons u _ t _ v head tail ih =>
    obtain ⟨_,got,_,_⟩ := head
    have step := keeps u s_buffer_size
    rw [got] at step
    exact ih.trans step

theorem readKeeps (framed : Framed env view) (run : ReadRun env view fname w s data w') :
    view.content w' = view.content w := by
  cases run with
  | unopened opening failed =>
    have same := framed.opens fname w
    rwa [opening] at same
  | @opened s0 f w0 content s data last opening ok has ends =>
    have same := framed.opens fname w
    rw [opening] at same
    have object := framed.reads fname w s0 f w0 opening ok
    obtain ⟨parts,before,_,run,_,ended,_⟩ := ends.fragments
    have step := (object before).2 s_buffer_size
    rw [ended] at step
    calc view.content (f.destroy last) = view.content last := (object last).1
      _ = view.content before := step
      _ = view.content w0 := readsKeep (fun v => (object v).2) run
      _ = view.content w := same

/- A file that was opened, and what append made of it. -/
theorem appendedPart (lawful : Lawful env view) (framed : Framed env view) {s0 s1 : Status} {f : WritableFile σ}
    {w0 w1 : σ} (opening : env.newWritableFile fname w = ((s0,some f),w0)) (ok : s0.ok = true)
    (appending : f.append data w0 = (s1,w1)) :
    Aside view fname w w1 ∧ view.writing w1 fname f ∧ ∃ part, part <+: data ∧ view.content w1 fname = some part := by
  obtain ⟨f',pointer,empty,writing⟩ := lawful.creates _ _ _ _ _ opening ok
  cases Option.some.inj pointer
  obtain ⟨old,part,before,after,isPrefix,_,writing1⟩ := lawful.appends _ _ _ _ _ _ writing appending
  have nothing : old = [] := Option.some.inj (before.symm.trans empty)
  rw [nothing,List.nil_append] at after
  have aside := asideTrans (framed.creates _ _ _ _ _ opening).1 (framed.appends _ _ _ _ _ _ writing appending)
  exact ⟨aside,writing1,part,isPrefix,after⟩

/- What a removal leaves of a file that holds a part of the data. -/
theorem deletedPart (lawful : Lawful env view) (framed : Framed env view) {f : WritableFile σ} {u : σ} {part : Bytes}
    (writing : view.writing u fname f) (here : view.content u fname = some part) :
    Aside view fname u (env.deleteFile fname (f.destroy u)).2 ∧
      (view.content (env.deleteFile fname (f.destroy u)).2 fname = none ∨
        view.content (env.deleteFile fname (f.destroy u)).2 fname = some part) := by
  have closed : view.content (f.destroy u) fname = some part := (lawful.destroys _ _ _ writing).trans here
  obtain ⟨aside,failed⟩ := framed.deletes fname (f.destroy u)
  refine ⟨asideTrans (framed.destroys _ _ _ writing) aside,?_⟩
  cases ok : (env.deleteFile fname (f.destroy u)).1.ok with
  | true => exact .inl (deleteRemoves lawful _ _ ok)
  | false =>
    rcases failed ok with kept | gone
    · exact .inr (kept.trans closed)
    · exact .inl gone

/- What a write leaves of its file: all the data where it succeeds, and what was there
before, nothing or a part of the data where it does not. -/
structure Leaves (view : FileView σ) (data fname : Bytes) (w : σ) (s : Status) (w' : σ) : Prop where
  aside : Aside view fname w w'
  whole : s.ok = true → view.content w' fname = some data
  failed : s.ok = false → view.content w' fname = view.content w fname ∨ view.content w' fname = none ∨
    ∃ part, part <+: data ∧ view.content w' fname = some part

theorem writeLeaves (lawful : Lawful env view) (framed : Framed env view) {removal : Option Status}
    (run : WriteRun env data fname w s removal w') : Leaves view data fname w s w' := by
  have whole := writtenContent lawful run
  cases run with
  | unopened opening failed =>
    obtain ⟨aside,left⟩ := framed.creates _ _ _ _ _ opening
    refine ⟨aside,whole,fun _ => ?_⟩
    rcases left failed with same | none | empty
    · exact .inl same
    · exact .inr (.inl none)
    · exact .inr (.inr ⟨[],List.nil_prefix,empty⟩)
  | unappended opening ok appending failed =>
    obtain ⟨aside,writing,part,isPrefix,here⟩ := appendedPart lawful framed opening ok appending
    obtain ⟨aside',left⟩ := deletedPart lawful framed writing here
    exact ⟨asideTrans aside aside',whole,fun _ => .inr (left.imp_right fun kept => ⟨part,isPrefix,kept⟩)⟩
  | unclosed opening ok appending appended closing failed =>
    obtain ⟨aside,writing,part,isPrefix,here⟩ := appendedPart lawful framed opening ok appending
    obtain ⟨aside',broken⟩ := framed.closes _ _ _ _ _ writing closing
    obtain ⟨writing',rest⟩ := broken failed
    obtain ⟨left,here',shorter⟩ := rest part here
    obtain ⟨aside'',left'⟩ := deletedPart lawful framed writing' here'
    refine ⟨asideTrans aside (asideTrans aside' aside''),whole,fun _ => .inr ?_⟩
    exact left'.imp_right fun kept => ⟨left,shorter.trans isPrefix,kept⟩
  | written opening ok appending appended closing closed =>
    obtain ⟨aside,writing,_⟩ := appendedPart lawful framed opening ok appending
    obtain ⟨aside',_⟩ := framed.closes _ _ _ _ _ writing closing
    obtain ⟨_,writing'⟩ := lawful.closes _ _ _ _ _ writing closing closed
    refine ⟨asideTrans aside (asideTrans aside' (framed.destroys _ _ _ writing')),whole,?_⟩
    intro failed
    rw [closed] at failed
    cases failed

end Calls

theorem readMore {fname : Bytes} {w : σ} {fuel fuel' : Nat} {r : Status × Bytes × σ}
    (ran : readFileToString env fname fuel w = .ok r) (le : fuel ≤ fuel') :
    readFileToString env fname fuel' w = .ok r := by
  unfold readFileToString at ran ⊢
  cases opening : env.newSequentialFile fname w with
  | mk answer w0 =>
    obtain ⟨s0,file⟩ := answer
    simp only [opening] at ran ⊢
    cases ok : s0.ok with
    | false =>
      simp only [ok] at ran ⊢
      exact ran
    | true =>
      simp only [ok] at ran ⊢
      obtain ⟨f,pointer,rest⟩ := Machine.okBind ran
      obtain ⟨out,loop,last⟩ := Machine.okBind rest
      simp only [Bool.not_true,Bool.false_eq_true,if_false,pointer,Loop.more loop le,bind,Except.bind]
      exact last

/- A call that was made, with what it returned. -/
inductive Done where
  | wrote (data fname : Bytes) (s : Status)
  | read (fname : Bytes) (s : Status) (out : Bytes)

inductive Step (env : Env σ) : σ → Done → σ → Prop where
  | wrote {w data fname s w'} (ran : writeStringToFile env data fname w = .ok (s,w')) :
      Step env w (.wrote data fname s) w'
  | read {w fname s out w'}
      (ran : ∃ rounds, ∀ fuel, rounds < fuel → readFileToString env fname fuel w = .ok (s,out,w')) :
      Step env w (.read fname s out) w'

/- What the calls leave of one file: the data last written to it, and the data of the
writes that have failed since. -/
structure Standing where
  last : Option Bytes
  failed : List Bytes
  deriving DecidableEq, Repr

def Standing.after (fname : Bytes) (st : Standing) : Done → Standing
  | .read .. => st
  | .wrote data name s =>
    if name = fname then if s.ok then ⟨some data,[]⟩ else {st with failed := st.failed ++ [data]} else st

def standing (fname : Bytes) (first : Option Bytes) (ds : List Done) : Standing :=
  ds.foldl (Standing.after fname) ⟨first,[]⟩

def Stands (st : Standing) (content : Option Bytes) : Prop :=
  content = st.last ∨ ∃ data ∈ st.failed, content = none ∨ ∃ part, part <+: data ∧ content = some part

theorem standsFailed {st : Standing} {content content' : Option Bytes} {data : Bytes} (before : Stands st content)
    (left : content' = content ∨ content' = none ∨ ∃ part, part <+: data ∧ content' = some part) :
    Stands {st with failed := st.failed ++ [data]} content' := by
  rcases left with same | partly
  · rcases before with last | ⟨d,mem,rest⟩
    · exact .inl (same.trans last)
    · exact .inr ⟨d,List.mem_append_left _ mem,same ▸ rest⟩
  · exact .inr ⟨data,by simp,partly⟩

theorem stepStands (lawful : Lawful env view) (framed : Framed env view) {w w' : σ} {d : Done} (step : Step env w d w')
    {fname : Bytes} {st : Standing} (before : Stands st (view.content w fname)) :
    Stands (st.after fname d) (view.content w' fname) := by
  cases step with
  | wrote ran =>
    rename_i data name s
    obtain ⟨_,_,_,ran',run⟩ := writeSpec lawful data name w
    cases Except.ok.inj (ran.symm.trans ran')
    have leaves := writeLeaves lawful framed run
    by_cases mine : name = fname
    · subst mine
      cases ok : s.ok with
      | true => exact .inl (by simp [Standing.after,ok,leaves.whole ok])
      | false =>
        simp only [Standing.after,ok,if_true,Bool.false_eq_true,if_false]
        exact standsFailed before (leaves.failed ok)
    · rw [Standing.after,if_neg mine,leaves.aside fname (Ne.symm mine)]
      exact before
  | read ran =>
    rename_i name s out
    obtain ⟨rounds,ran⟩ := ran
    obtain ⟨rounds',spec⟩ := readSpec lawful name w
    obtain ⟨_,_,_,ran',run⟩ := spec (rounds+rounds'+1) (by omega)
    cases Except.ok.inj ((ran (rounds+rounds'+1) (by omega)).symm.trans ran')
    rw [readKeeps framed run]
    exact before

theorem runStands (lawful : Lawful env view) (framed : Framed env view) {w w' : σ} {ds : List Done}
    (run : Machine.Run (Step env) w ds w') {fname : Bytes} {st : Standing} (before : Stands st (view.content w fname)) :
    Stands (ds.foldl (Standing.after fname) st) (view.content w' fname) := by
  induction run generalizing st with
  | nil => exact before
  | cons head tail ih => exact ih (stepStands lawful framed head before)

/- What a successful read returns is what the file holds. -/
theorem readStands (lawful : Lawful env view) {w w' : σ} {fname out : Bytes} {s : Status}
    (step : Step env w (.read fname s out) w') (ok : s.ok = true) : view.content w fname = some out := by
  cases step with
  | read ran =>
    obtain ⟨rounds,ran⟩ := ran
    obtain ⟨rounds',spec⟩ := readSpec lawful fname w
    obtain ⟨_,_,_,ran',run⟩ := spec (rounds+rounds'+1) (by omega)
    cases Except.ok.inj ((ran (rounds+rounds'+1) (by omega)).symm.trans ran')
    cases run with
    | unopened opening failed =>
      rw [ok] at failed
      cases failed
    | opened opening opened has ends => rw [has,ends.whole ok]

theorem newStands (content : Option Bytes) : Stands ⟨content,[]⟩ content := .inl rfl

/-- A read that succeeds returns the data of the last write of that file that
succeeded, or a part of the data of one that has failed since; it never mixes them,
and with no failure since it returns just what was written, whatever was done to
other files. -/
theorem filesStand (env : Env σ) (view : FileView σ) (lawful : Lawful env view) (framed : Framed env view)
    (ds : List Done) (w w' : σ) (run : Machine.Run (Step env) w ds w') :
    (∀ data fname, ∃ s w'', Step env w' (.wrote data fname s) w'') ∧
    (∀ fname, ∃ s out w'', Step env w' (.read fname s out) w'') ∧
    ∀ fname, Stands (standing fname (view.content w fname) ds) (view.content w' fname) ∧
      ∀ s out w'', Step env w' (.read fname s out) w'' → s.ok = true →
        (standing fname (view.content w fname) ds).last = some out ∨
          ∃ data ∈ (standing fname (view.content w fname) ds).failed, out <+: data := by
  have writes : ∀ data fname, ∃ s w'', Step env w' (.wrote data fname s) w'' := by
    intro data fname
    obtain ⟨s,_,w'',ran,_⟩ := writeSpec lawful data fname w'
    exact ⟨s,w'',.wrote ran⟩
  have reads : ∀ fname, ∃ s out w'', Step env w' (.read fname s out) w'' := by
    intro fname
    obtain ⟨rounds,spec⟩ := readSpec lawful fname w'
    obtain ⟨s,out,w'',ran,_⟩ := spec (rounds+1) (by omega)
    refine ⟨s,out,w'',.read ⟨rounds,?_⟩⟩
    exact fun fuel enough => readMore ran enough
  refine ⟨writes,reads,?_⟩
  intro fname
  have stands := runStands lawful framed run (newStands (view.content w fname))
  refine ⟨stands,?_⟩
  intro s out w'' step ok
  have here := readStands lawful step ok
  rcases stands with last | ⟨data,mem,none | ⟨part,isPrefix,same⟩⟩
  · exact .inl (last.symm.trans here)
  · rw [here] at none
    cases none
  · rw [here] at same
    cases Option.some.inj same
    exact .inr ⟨data,mem,isPrefix⟩

namespace Memory

theorem putAside (m : Memory) (fname : Bytes) (content : Option Bytes) : Aside asView fname m (m.put fname content) :=
  fun _ differ => Function.update_of_ne differ ..

theorem attemptAside {done : Memory → Memory} {m m' : Memory} {s : Status} {fname : Bytes}
    (acts : ∀ m, Aside asView fname m (done m)) (run : attempt done m = (s,m')) :
    Aside asView fname m m' ∧ (s.ok = false → m'.files = m.files) := by
  unfold attempt at run
  split at run
  · cases run
    exact ⟨fun _ _ => rfl,fun _ => rfl⟩
  · cases run
    exact ⟨acts m.settle,nofun⟩

theorem framed : Framed asEnv asView where
  creates := by
    intro fname m s file m' run
    simp only [asEnv] at run
    split at run
    · cases run
      exact ⟨fun _ _ => rfl,fun _ => .inl rfl⟩
    · cases run
      refine ⟨putAside m.settle fname _,?_⟩
      intro failed
      cases failed
  appends := by
    intro fname f m data s m' writing run
    obtain ⟨rfl,_⟩ := writing
    simp only [writer] at run
    split at run
    · cases run
      exact putAside m.settle fname _
    · cases run
      exact putAside m.settle fname _
  closes := by
    intro fname f m s m' writing run
    obtain ⟨rfl,there⟩ := writing
    obtain ⟨aside,kept⟩ := attemptAside (fun _ _ _ => rfl) run
    refine ⟨aside,?_⟩
    intro failed
    have same := kept failed
    refine ⟨⟨rfl,by rw [same]; exact there⟩,?_⟩
    intro old here
    exact ⟨old,(congrFun same fname).trans here,List.prefix_refl old⟩
  destroys := by
    intro fname f m writing
    obtain ⟨rfl,_⟩ := writing
    exact fun _ _ => rfl
  deletes := by
    intro fname m
    obtain ⟨aside,kept⟩ := attemptAside (fun m => putAside m fname none) (rfl : remove fname m = (_,_))
    exact ⟨aside,fun failed => .inl (congrFun (kept failed) fname)⟩
  opens := by
    intro fname m
    simp only [asEnv]
    split
    · rfl
    · split
      · rfl
      · rfl
  reads := by
    intro fname m s f m' run ok
    simp only [asEnv] at run
    split at run
    · cases run
    · split at run
      · cases run
      · cases run
        refine fun v => ⟨rfl,fun n => ?_⟩
        simp only [reader]
        split
        · rfl
        · rfl

end Memory

/- A file that is written, then another, whose write fails: the first is read back. -/
theorem filesStandMemory : ∃ w' : Memory,
    Machine.Run (Step Memory.asEnv) ⟨fun _ => none,[],[false,false,false,true]⟩
      [.wrote [1,2,3] [102] .success,.wrote [4] [103] Memory.failure] w' ∧
    ∀ s out w'', Step Memory.asEnv w' (.read [102] s out) w'' → s.ok = true → out = [1,2,3] := by
  have run : ∃ w' : Memory, Machine.Run (Step Memory.asEnv) ⟨fun _ => none,[],[false,false,false,true]⟩
      [.wrote [1,2,3] [102] .success,.wrote [4] [103] Memory.failure] w' :=
    ⟨_,.cons (.wrote rfl) (.cons (.wrote rfl) (.nil _))⟩
  obtain ⟨w',run⟩ := run
  obtain ⟨_,_,stands⟩ := filesStand Memory.asEnv Memory.asView Memory.lawful Memory.framed _ _ _ run
  refine ⟨w',run,?_⟩
  intro s out w'' step ok
  rcases (stands [102]).2 s out w'' step ok with last | ⟨_,mem,_⟩
  · exact (Option.some.inj last).symm
  · cases mem

end KVStorage.Env
