import KVStorage.Env

/-! Writing a string to a file and reading it back, on any environment that keeps
the contract of its operations: each may fail at any call, and a read may return
any part of what is left. -/
namespace KVStorage.Env

open Support

/- How a state of the environment is seen: the content of each file, which files
an object writes, and what an object has still to read. -/
structure FileView (σ : Type) where
  content : σ → Bytes → Option Bytes
  writing : σ → Bytes → WritableFile σ → Prop
  reading : σ → SequentialFile σ → Bytes → Prop

variable {σ : Type}

def Removes (view : FileView σ) (remove : Bytes → Call σ Status) : Prop :=
  ∀ fname w, (remove fname w).1.ok = true → view.content (remove fname w).2 fname = none

/- The contract: what the operations do where they report success. -/
structure Lawful (env : Env σ) (view : FileView σ) : Prop where
  creates : ∀ fname w s file w', env.newWritableFile fname w = ((s,file),w') → s.ok = true →
    ∃ f, file = some f ∧ view.content w' fname = some [] ∧ view.writing w' fname f
  appends : ∀ fname f w data s w', view.writing w fname f → f.append data w = (s,w') →
    ∃ old part, view.content w fname = some old ∧ view.content w' fname = some (old ++ part) ∧
      part <+: data ∧ (s.ok = true → part = data) ∧ view.writing w' fname f
  closes : ∀ fname f w s w', view.writing w fname f → f.close w = (s,w') → s.ok = true →
    view.content w' fname = view.content w fname ∧ view.writing w' fname f
  destroys : ∀ fname f w, view.writing w fname f → view.content (f.destroy w) fname = view.content w fname
  removes : Removes view env.removeFile
  deletes : env.deleteFile = env.removeFile ∨ Removes view env.deleteFile
  opens : ∀ fname w s file w', env.newSequentialFile fname w = ((s,file),w') → s.ok = true →
    ∃ f content, file = some f ∧ view.content w fname = some content ∧ view.reading w' f content
  reads : ∀ f w n rest s fragment w', view.reading w f rest → 0 < n → f.read n w = ((s,fragment),w') → s.ok = true →
    ∃ left, rest = fragment ++ left ∧ fragment.length ≤ n ∧ (fragment = [] → rest = []) ∧ view.reading w' f left

variable {env : Env σ} {view : FileView σ}

theorem deleteRemoves (lawful : Lawful env view) : Removes view env.deleteFile := by
  rcases lawful.deletes with inherited | own
  · rw [inherited]
    exact lawful.removes
  · exact own

section Reading

/- One successful read of a non-empty fragment. -/
def Reads (file : SequentialFile σ) (w : σ) (fragment : Bytes) (w' : σ) : Prop :=
  ∃ s, file.read s_buffer_size w = ((s,fragment),w') ∧ s.ok = true ∧ fragment ≠ []

/- How the loop ends: after some fragments, at a failed read or at the empty
fragment that stands for the end of the file. -/
structure ReadEnds (file : SequentialFile σ) (start : σ) (content : Bytes) (s : Status) (data : Bytes) (w : σ) :
    Prop where
  fragments : ∃ parts before last, Machine.Run (Reads file) start parts before ∧ data = parts.flatten ∧
    file.read s_buffer_size before = ((s,last),w) ∧ (s.ok = true → last = [])
  isPrefix : data <+: content
  whole : s.ok = true → data = content

/- What the loop keeps: the fragments so far and what is left make the file. -/
def Reading (view : FileView σ) (file : SequentialFile σ) (start : σ) (content : Bytes) (n : Nat)
    (r : Bytes × σ) : Prop :=
  ∃ parts rest, Machine.Run (Reads file) start parts r.2 ∧ r.1 = parts.flatten ∧ content = r.1 ++ rest ∧
    view.reading r.2 file rest ∧ rest.length = n

theorem readRoundSpec (lawful : Lawful env view) {file : SequentialFile σ} {start : σ} {content : Bytes}
    (n : Nat) (r : Bytes × σ) (inv : Reading view file start content n r) :
    (∃ t k, readRound file r = .ok (.again t) ∧ k < n ∧ Reading view file start content k t) ∨
    (∃ out, readRound file r = .ok (.done out) ∧ ReadEnds file start content out.1 out.2.1 out.2.2) := by
  obtain ⟨data,w⟩ := r
  obtain ⟨parts,rest,run,gathered,split,opened,size⟩ := inv
  simp only at gathered split run opened
  unfold readRound
  cases got : file.read s_buffer_size w with
  | mk answer w' =>
    obtain ⟨s,fragment⟩ := answer
    cases ok : s.ok with
    | false =>
      have ends : ReadEnds file start content s data w' :=
        ⟨⟨parts,w,fragment,run,gathered,got,by simp [ok]⟩,⟨rest,split.symm⟩,by simp [ok]⟩
      exact .inr ⟨(s,data,w'),by simp [got,ok],ends⟩
    | true =>
      obtain ⟨left,cut,_,atEnd,next⟩ := lawful.reads file w s_buffer_size rest s fragment w' opened (by decide) got ok
      by_cases empty : fragment = []
      · have spent := atEnd empty
        have full : data = content := by simp [split,spent]
        have ends : ReadEnds file start content s data w' :=
          ⟨⟨parts,w,fragment,run,gathered,got,fun _ => empty⟩,⟨rest,split.symm⟩,fun _ => full⟩
        exact .inr ⟨(s,data,w'),by simp [got,ok,empty],ends⟩
      · have shorter : left.length < n := by
          have sizes := congrArg List.length cut
          have positive := List.length_pos_iff.mpr empty
          simp only [List.length_append] at sizes
          omega
        have longer : Machine.Run (Reads file) start (parts ++ [fragment]) w' := Machine.runSnoc run ⟨s,got,ok,empty⟩
        have inv : Reading view file start content left.length (data ++ fragment,w') :=
          ⟨parts ++ [fragment],left,longer,by simp [gathered],by simp [split,cut],next,rfl⟩
        exact .inl ⟨(data ++ fragment,w'),left.length,by simp [got,ok,empty],shorter,inv⟩

theorem readLoopSpec (lawful : Lawful env view) {file : SequentialFile σ} {w : σ} {content : Bytes}
    (opened : view.reading w file content) {fuel : Nat} (enough : content.length < fuel) :
    ∃ s data w', Loop.run (readRound file) .limit fuel ([],w) = .ok (s,data,w') ∧
      ReadEnds file w content s data w' := by
  have start : Reading view file w content content.length ([],w) :=
    ⟨[],content,.nil w,rfl,rfl,opened,rfl⟩
  have finished : ∃ out, Loop.run (readRound file) .limit fuel ([],w) = .ok out ∧
      ReadEnds file w content out.1 out.2.1 out.2.2 := Loop.total (readRoundSpec lawful) start enough
  obtain ⟨out,run,ends⟩ := finished
  exact ⟨out.1,out.2.1,out.2.2,run,ends⟩

/- A whole read: the status of a failed open with nothing read, or the loop over
the content the file has. -/
inductive ReadRun (env : Env σ) (view : FileView σ) (fname : Bytes) (w : σ) : Status → Bytes → σ → Prop where
  | unopened {s file w'} (opening : env.newSequentialFile fname w = ((s,file),w')) (failed : s.ok = false) :
      ReadRun env view fname w s [] w'
  | opened {s0 file w0 content s data w'} (opening : env.newSequentialFile fname w = ((s0,some file),w0))
      (ok : s0.ok = true) (has : view.content w fname = some content) (ends : ReadEnds file w0 content s data w') :
      ReadRun env view fname w s data (file.destroy w')

theorem readSpec (lawful : Lawful env view) (fname : Bytes) (w : σ) : ∃ rounds, ∀ fuel, rounds < fuel →
    ∃ s data w', readFileToString env fname fuel w = .ok (s,data,w') ∧ ReadRun env view fname w s data w' := by
  unfold readFileToString
  cases opening : env.newSequentialFile fname w with
  | mk answer w0 =>
    obtain ⟨s0,file⟩ := answer
    cases ok : s0.ok with
    | false =>
      exact ⟨0,fun fuel _ => ⟨s0,[],w0,by simp [ok],.unopened opening ok⟩⟩
    | true =>
      obtain ⟨f,content,pointer,has,reading⟩ := lawful.opens fname w s0 file w0 opening ok
      subst pointer
      refine ⟨content.length,?_⟩
      intro fuel enough
      obtain ⟨s,data,w',run,ends⟩ := readLoopSpec lawful reading enough
      exact ⟨s,data,f.destroy w',by simp [ok,deref,run,bind,Except.bind],.opened opening ok has ends⟩

theorem readWhole {fname : Bytes} {w w' : σ} {s : Status} {data content : Bytes}
    (run : ReadRun env view fname w s data w') (has : view.content w fname = some content) (ok : s.ok = true) :
    data = content := by
  cases run with
  | unopened opening failed =>
    rw [ok] at failed
    cases failed
  | opened opening opened has' ends =>
    cases Option.some.inj (has.symm.trans has')
    exact ends.whole ok

theorem readMissing {fname : Bytes} {w w' : σ} {s : Status} {data : Bytes}
    (run : ReadRun env view fname w s data w') (missing : view.content w fname = none) : s.ok = false := by
  cases run with
  | unopened opening failed => exact failed
  | opened opening opened has ends =>
    rw [missing] at has
    cases has

end Reading

section Writing

/- What a write does: which operation was the first to fail, the calls that the
code makes after it in their order, and the status of the removal if there is one. -/
inductive WriteRun (env : Env σ) (data fname : Bytes) (w : σ) : Status → Option Status → σ → Prop where
  | unopened {s file w'} (opening : env.newWritableFile fname w = ((s,file),w')) (failed : s.ok = false) :
      WriteRun env data fname w s none w'
  | unappended {s0 file w0 s w1} (opening : env.newWritableFile fname w = ((s0,some file),w0)) (ok : s0.ok = true)
      (appending : file.append data w0 = (s,w1)) (failed : s.ok = false) :
      WriteRun env data fname w s (some (env.deleteFile fname (file.destroy w1)).1)
        (env.deleteFile fname (file.destroy w1)).2
  | unclosed {s0 file w0 s1 w1 s w2} (opening : env.newWritableFile fname w = ((s0,some file),w0)) (ok : s0.ok = true)
      (appending : file.append data w0 = (s1,w1)) (appended : s1.ok = true)
      (closing : file.close w1 = (s,w2)) (failed : s.ok = false) :
      WriteRun env data fname w s (some (env.deleteFile fname (file.destroy w2)).1)
        (env.deleteFile fname (file.destroy w2)).2
  | written {s0 file w0 s1 w1 s w2} (opening : env.newWritableFile fname w = ((s0,some file),w0)) (ok : s0.ok = true)
      (appending : file.append data w0 = (s1,w1)) (appended : s1.ok = true)
      (closing : file.close w1 = (s,w2)) (closed : s.ok = true) :
      WriteRun env data fname w s none (file.destroy w2)

theorem writeSpec (lawful : Lawful env view) (data fname : Bytes) (w : σ) :
    ∃ s removal w', writeStringToFile env data fname w = .ok (s,w') ∧ WriteRun env data fname w s removal w' := by
  unfold writeStringToFile doWriteStringToFile
  cases opening : env.newWritableFile fname w with
  | mk answer w0 =>
    obtain ⟨s0,file⟩ := answer
    cases ok : s0.ok with
    | false => exact ⟨s0,none,w0,by simp [ok],.unopened opening ok⟩
    | true =>
      obtain ⟨f,pointer,_⟩ := lawful.creates fname w s0 file w0 opening ok
      subst pointer
      cases appending : f.append data w0 with
      | mk s1 w1 =>
        cases appended : s1.ok with
        | false =>
          have run := WriteRun.unappended opening ok appending appended
          exact ⟨s1,_,_,by simp [ok,deref,bind,Except.bind,appending,appended],run⟩
        | true =>
          cases closing : f.close w1 with
          | mk s2 w2 =>
            cases closed : s2.ok with
            | false =>
              have run := WriteRun.unclosed opening ok appending appended closing closed
              exact ⟨s2,_,_,by simp [ok,deref,bind,Except.bind,appending,appended,closing,closed],run⟩
            | true =>
              have run := WriteRun.written opening ok appending appended closing closed
              exact ⟨s2,_,_,by simp [ok,deref,bind,Except.bind,appending,appended,closing,closed],run⟩

theorem writtenContent (lawful : Lawful env view) {data fname : Bytes} {w w' : σ} {s : Status}
    {removal : Option Status} (run : WriteRun env data fname w s removal w') (done : s.ok = true) :
    view.content w' fname = some data := by
  cases run with
  | unopened opening failed => simp [done] at failed
  | unappended opening ok appending failed => simp [done] at failed
  | unclosed opening ok appending appended closing failed => simp [done] at failed
  | @written s0 f w0 s1 w1 s w2 opening ok appending appended closing closed =>
    obtain ⟨f',pointer,empty,writing⟩ := lawful.creates _ _ _ _ _ opening ok
    cases Option.some.inj pointer
    obtain ⟨old,part,before,after,_,all,writing1⟩ := lawful.appends _ _ _ _ _ _ writing appending
    obtain ⟨same,writing2⟩ := lawful.closes _ _ _ _ _ writing1 closing closed
    have nothing : old = [] := Option.some.inj (before.symm.trans empty)
    calc view.content (f.destroy w2) fname = view.content w2 fname := lawful.destroys _ _ _ writing2
      _ = view.content w1 fname := same
      _ = some (old ++ part) := after
      _ = some data := by rw [nothing,all appended,List.nil_append]

theorem removedContent (lawful : Lawful env view) {data fname : Bytes} {w w' : σ} {s r : Status}
    (run : WriteRun env data fname w s (some r) w') (gone : r.ok = true) : view.content w' fname = none := by
  cases run with
  | unappended opening ok appending failed => exact deleteRemoves lawful _ _ gone
  | unclosed opening ok appending appended closing failed => exact deleteRemoves lawful _ _ gone

end Writing

theorem fileRoundTrip (env : Env σ) (view : FileView σ) (lawful : Lawful env view) (data fname : Bytes) (w : σ) :
    (∃ s removal w', writeStringToFile env data fname w = .ok (s,w') ∧ WriteRun env data fname w s removal w' ∧
      (s.ok = true → view.content w' fname = some data) ∧
      (∀ r, removal = some r → r.ok = true → view.content w' fname = none) ∧
      ∃ rounds, ∀ fuel, rounds < fuel → ∃ s' out w'', readFileToString env fname fuel w' = .ok (s',out,w'') ∧
        (s.ok = true → s'.ok = true → out = data) ∧
        (∀ r, removal = some r → r.ok = true → s'.ok = false)) ∧
    ∃ rounds, ∀ fuel, rounds < fuel →
      ∃ s out w', readFileToString env fname fuel w = .ok (s,out,w') ∧ ReadRun env view fname w s out w' := by
  refine ⟨?_,readSpec lawful fname w⟩
  obtain ⟨s,removal,w',wrote,run⟩ := writeSpec lawful data fname w
  have removed : ∀ r, removal = some r → r.ok = true → view.content w' fname = none := by
    intro r eq gone
    subst eq
    exact removedContent lawful run gone
  obtain ⟨rounds,reads⟩ := readSpec lawful fname w'
  refine ⟨s,removal,w',wrote,run,writtenContent lawful run,removed,rounds,?_⟩
  intro fuel enough
  obtain ⟨s',out,w'',read,readRun⟩ := reads fuel enough
  have exact' : s.ok = true → s'.ok = true → out = data :=
    fun done ok => readWhole readRun (writtenContent lawful run done) ok
  have nothing : ∀ r, removal = some r → r.ok = true → s'.ok = false :=
    fun r eq gone => readMissing readRun (removed r eq gone)
  exact ⟨s',out,w'',read,exact',nothing⟩

/- An environment in memory whose operations fail as a script says, and whose
reads return three bytes at a time. -/
section Memory

structure Memory where
  files : Bytes → Option Bytes
  unread : List Bytes
  script : List Bool

namespace Memory

def fails (m : Memory) : Bool := m.script.headD false

def settle (m : Memory) : Memory := {m with script := m.script.tail}

def failure : Status := .ioError [105,111] []

def put (m : Memory) (fname : Bytes) (content : Option Bytes) : Memory :=
  {m with files := Function.update m.files fname content}

def attempt (done : Memory → Memory) : Call Memory Status := fun m =>
  if m.fails then (failure,m.settle) else (.success,done m.settle)

def write (m : Memory) (fname data : Bytes) : Memory := m.put fname ((m.files fname).map (· ++ data))

/- A failed append leaves the first byte behind. -/
def writer (fname : Bytes) : WritableFile Memory where
  append data m := if m.fails then (failure,m.settle.write fname (data.take 1)) else
    (.success,m.settle.write fname data)
  close := attempt id
  flush := attempt id
  sync := attempt id
  destroy := id

def reader (i : Nat) : SequentialFile Memory where
  read n m := if m.fails then ((failure,[]),m.settle) else
    let rest := m.unread.getD i []
    ((.success,rest.take (min n 3)),{m.settle with unread := m.unread.set i (rest.drop (min n 3))})
  skip n m := (.success,{m with unread := m.unread.set i ((m.unread.getD i []).drop n.toNat)})
  destroy := id

def remove (fname : Bytes) : Call Memory Status := attempt (fun m => m.put fname none)

def unsupported : Status := .notSupported [] []

def asEnv : Env Memory where
  newSequentialFile fname m :=
    match m.files fname with
    | none => ((.notFound fname [],none),m)
    | some content => if m.fails then ((failure,none),m.settle) else
      ((.success,some (reader m.unread.length)),{m.settle with unread := m.unread ++ [content]})
  newRandomAccessFile _ m := ((unsupported,none),m)
  newWritableFile fname m := if m.fails then ((failure,none),m.settle) else
    ((.success,some (writer fname)),m.settle.put fname (some []))
  newAppendableFile _ m := ((unsupported,none),m)
  fileExists fname m := ((m.files fname).isSome,m)
  getChildren _ res m := ((unsupported,res),m)
  removeFile := remove
  createDir _ m := (unsupported,m)
  removeDir _ m := (unsupported,m)
  getFileSize _ file_size m := ((unsupported,file_size),m)
  renameFile _ _ m := (unsupported,m)
  lockFile _ m := ((unsupported,none),m)
  unlockFile _ m := (unsupported,m)
  schedule _ _ m := m
  startThread _ _ m := m
  getTestDirectory path m := ((unsupported,path),m)
  newLogger _ m := ((unsupported,none),m)
  nowTimeMicros m := (0,m)
  sleepForMicroseconds _ m := m

def asView : FileView Memory where
  content := Memory.files
  writing m fname f := f = writer fname ∧ (m.files fname).isSome
  reading m f rest := ∃ i, f = reader i ∧ m.unread[i]? = some rest

theorem attemptOk {done : Memory → Memory} {m m' : Memory} {s : Status} (run : attempt done m = (s,m'))
    (ok : s.ok = true) : m' = done m.settle := by
  unfold attempt at run
  split at run
  · cases run
    cases ok
  · cases run
    rfl

theorem putContent (m : Memory) (fname : Bytes) (content : Option Bytes) :
    (m.put fname content).files fname = content := Function.update_self ..

theorem writeContent {m : Memory} {fname old : Bytes} (has : m.files fname = some old) (data : Bytes) :
    (m.write fname data).files fname = some (old ++ data) := by
  unfold write
  rw [putContent,has]
  rfl

theorem writerAppends {fname data : Bytes} {m m' : Memory} {s : Status} {old : Bytes}
    (has : m.files fname = some old) (run : (writer fname).append data m = (s,m')) :
    ∃ part, m'.files fname = some (old ++ part) ∧ part <+: data ∧ (s.ok = true → part = data) := by
  simp only [writer] at run
  split at run
  · cases run
    exact ⟨data.take 1,writeContent (m := m.settle) has _,List.take_prefix 1 data,nofun⟩
  · cases run
    exact ⟨data,writeContent (m := m.settle) has _,List.prefix_refl data,fun _ => rfl⟩

theorem readerReads {i n : Nat} {m m' : Memory} {rest fragment : Bytes} {s : Status}
    (left : m.unread[i]? = some rest) (run : (reader i).read n m = ((s,fragment),m')) (ok : s.ok = true) :
    fragment = rest.take (min n 3) ∧ m'.unread[i]? = some (rest.drop (min n 3)) := by
  have inside : i < m.unread.length := (List.getElem?_eq_some_iff.mp left).1
  have held : m.unread.getD i [] = rest := by rw [List.getD_eq_getElem?_getD,left,Option.getD_some]
  simp only [reader,held] at run
  split at run
  · cases run
    cases ok
  · cases run
    exact ⟨rfl,List.getElem?_set_self inside⟩

theorem removeRemoves : Removes asView remove := by
  intro fname m ok
  have run : attempt (fun m => m.put fname none) m = ((remove fname m).1,(remove fname m).2) := rfl
  have gone := putContent m.settle fname none
  rwa [← attemptOk run ok] at gone

theorem lawful : Lawful asEnv asView where
  creates := by
    intro fname m s file m' run ok
    simp only [asEnv] at run
    split at run
    · cases run
      cases ok
    · cases run
      have empty := putContent m.settle fname (some [])
      exact ⟨writer fname,rfl,empty,rfl,by rw [empty]; rfl⟩
  appends := by
    intro fname f m data s m' writing run
    obtain ⟨rfl,there⟩ := writing
    obtain ⟨old,has⟩ := Option.isSome_iff_exists.mp there
    obtain ⟨part,after,isPrefix,whole⟩ := writerAppends has run
    exact ⟨old,part,has,after,isPrefix,whole,rfl,by rw [after]; rfl⟩
  closes := by
    intro fname f m s m' writing run ok
    obtain ⟨rfl,there⟩ := writing
    cases attemptOk run ok
    exact ⟨rfl,rfl,there⟩
  destroys := by
    intro fname f m writing
    obtain ⟨rfl,_⟩ := writing
    rfl
  removes := removeRemoves
  deletes := .inl rfl
  opens := by
    intro fname m s file m' run ok
    simp only [asEnv] at run
    split at run
    · cases run
      cases ok
    · rename_i content has
      split at run
      · cases run
        cases ok
      · cases run
        have last : (m.unread ++ [content])[m.unread.length]? = some content := List.getElem?_concat_length
        exact ⟨_,content,rfl,has,m.unread.length,rfl,last⟩
  reads := by
    intro f m n rest s fragment m' reading positive run ok
    obtain ⟨i,rfl,left⟩ := reading
    obtain ⟨taken,after⟩ := readerReads left run ok
    refine ⟨rest.drop (min n 3),?_,?_,?_,i,rfl,after⟩
    · rw [taken,List.take_append_drop]
    · rw [taken,List.length_take]
      omega
    · intro empty
      rw [taken] at empty
      exact (List.take_eq_nil_iff.mp empty).resolve_left (by omega)

end Memory

/- A write that succeeds and is read back in three fragments, and one whose append
fails, so that nothing is left to read. -/
theorem fileRoundTripMemory :
    (∃ s removal w', writeStringToFile Memory.asEnv [1,2,3,4,5,6,7] [102] ⟨fun _ => some [9],[],[]⟩ = .ok (s,w') ∧
      WriteRun Memory.asEnv [1,2,3,4,5,6,7] [102] ⟨fun _ => some [9],[],[]⟩ s removal w' ∧
      w'.files [102] = some [1,2,3,4,5,6,7]) ∧
    ∃ s removal w', writeStringToFile Memory.asEnv [1,2] [102] ⟨fun _ => none,[],[false,true,false]⟩ = .ok (s,w') ∧
      WriteRun Memory.asEnv [1,2] [102] ⟨fun _ => none,[],[false,true,false]⟩ s removal w' ∧ s.ok = false ∧
      w'.files [102] = none := by
  obtain ⟨s,removal,w',wrote,run,whole,_,_⟩ := (fileRoundTrip Memory.asEnv Memory.asView Memory.lawful
    [1,2,3,4,5,6,7] [102] ⟨fun _ => some [9],[],[]⟩).1
  obtain ⟨s2,removal2,w2,wrote2,run2,_,gone,_⟩ := (fileRoundTrip Memory.asEnv Memory.asView Memory.lawful
    [1,2] [102] ⟨fun _ => none,[],[false,true,false]⟩).1
  refine ⟨⟨s,removal,w',wrote,run,whole ?_⟩,⟨s2,removal2,w2,wrote2,run2,?_,?_⟩⟩
  · cases wrote
    rfl
  · cases wrote2
    rfl
  · cases wrote2
    rfl

end Memory
end KVStorage.Env
