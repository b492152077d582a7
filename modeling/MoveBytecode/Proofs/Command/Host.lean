import Mathlib
import MoveBytecode.Command.Run

/-! What a command may rely on in the machine it runs on. Reading changes neither files nor the standard output, a text is
written or printed as a whole or not at all, and only a report that cannot be made ends the process early. -/

set_option autoImplicit false

namespace MoveBytecode

/-- Files by their places. A path leads to one place, and a text that is written by it may go to another, as for a link,
whose place it takes. -/
structure Files (Place : Type) where
  find? : String → Option Place
  entry? : String → Option Place
  bytes? : Place → Option Bytes

namespace Files

variable {Place : Type}

def Holds (files : Files Place) (path : String) (bytes : Bytes) : Prop :=
  ∃ place, files.find? path = some place ∧ files.bytes? place = some bytes

def Exists (files : Files Place) (path : String) : Prop := ∃ bytes, files.Holds path bytes

/-- The path leads to a file of these bytes afterwards, and no other file is touched. -/
def Puts (before after : Files Place) (path : String) (bytes : Bytes) : Prop :=
  ∃ place, before.entry? path = some place ∧ after.find? path = some place ∧ after.bytes? place = some bytes ∧
    ∀ other, other ≠ place → after.bytes? other = before.bytes? other

end Files

structure Scene (Place : Type) where
  files : Files Place
  input : Bytes
  output : String

namespace Scene

variable {Place : Type} {first second third : Scene Place}

/-- Nothing was written and nothing printed. -/
structure Untouched (before after : Scene Place) : Prop where
  files : after.files = before.files
  output : after.output = before.output

theorem Untouched.refl (scene : Scene Place) : Untouched scene scene := ⟨rfl, rfl⟩

theorem Untouched.trans (earlier : first.Untouched second) (later : second.Untouched third) : first.Untouched third :=
  ⟨later.files.trans earlier.files, later.output.trans earlier.output⟩

def Configures (scene : Scene Place) (path : String) (config : Config) : Prop :=
  ∃ text, scene.files.Holds path (Bytes.ofText text) ∧ Config.ofText? text = some config

def Labels (scene : Scene Place) : Option String → Aliases → Prop
  | none, aliases => aliases = []
  | some path, aliases => ∃ config, scene.Configures path config ∧ aliases = config.aliases

/-- The text was printed, or else put into the file of the destination, which may not be there without leave. -/
def Delivered (before after : Scene Place) (destination : Destination) (text : String) : Prop :=
  match destination.path with
  | none => after.files = before.files ∧ after.output = before.output ++ text
  | some path => after.output = before.output ∧ before.files.Puts after.files path (Bytes.ofText text) ∧
      (before.files.Exists path → destination.overwrite = true)

theorem Untouched.configures (untouched : first.Untouched second) {path : String} {config : Config}
    (loaded : second.Configures path config) : first.Configures path config := by
  unfold Configures at loaded ⊢
  rwa [untouched.files] at loaded

theorem Untouched.labels (untouched : first.Untouched second) {path? : Option String} {aliases : Aliases}
    (read : second.Labels path? aliases) : first.Labels path? aliases := by
  cases path? with
  | none => exact read
  | some path =>
    obtain ⟨config, loaded, same⟩ := read
    exact ⟨config, untouched.configures loaded, same⟩

theorem Delivered.between {fourth : Scene Place} {destination : Destination} {text : String}
    (earlier : first.Untouched second) (delivered : second.Delivered third destination text)
    (later : third.Untouched fourth) : first.Delivered fourth destination text := by
  unfold Delivered at delivered ⊢
  rwa [later.files, later.output, ← earlier.files, ← earlier.output]

end Scene

/-- The process ends where a report cannot be made. -/
inductive Panic where
  | report
  deriving DecidableEq, Repr

section
variable {σ α β : Type}

def Ends (action : EStateM Panic σ α) (before : σ) (returns : α → σ → Prop) (panics : σ → Prop) : Prop :=
  match action before with
  | .ok value after => returns value after
  | .error _ after => panics after

def Returns (action : EStateM Panic σ α) (before : σ) (returns : α → σ → Prop) : Prop :=
  Ends action before returns fun _ => False

variable {action : EStateM Panic σ α} {follow : α → EStateM Panic σ β} {before : σ} {returns others : α → σ → Prop}
  {results : β → σ → Prop} {panics crashes : σ → Prop}

theorem Ends.imp (ends : Ends action before returns panics)
    (weaker : ∀ value after, returns value after → others value after)
    (weaker' : ∀ after, panics after → crashes after) : Ends action before others crashes := by
  unfold Ends at ends ⊢
  split at ends
  · exact weaker _ _ ends
  · exact weaker' _ ends

theorem Returns.ends (returned : Returns action before returns) : Ends action before returns panics :=
  returned.imp (fun _ _ => id) fun _ => False.elim

theorem Ends.and (ends : Ends action before returns panics) (ends' : Ends action before others crashes) :
    Ends action before (fun value after => returns value after ∧ others value after)
      fun after => panics after ∧ crashes after := by
  unfold Ends at ends ends' ⊢
  split at ends
  · next ran => exact ⟨ends, by rwa [ran] at ends'⟩
  · next ran => exact ⟨ends, by rwa [ran] at ends'⟩

theorem Ends.bind (first : Ends action before returns panics)
    (second : ∀ value middle, returns value middle → Ends (follow value) middle results panics) :
    Ends (action >>= follow) before results panics := by
  unfold Ends at first
  change Ends (EStateM.bind action follow) before results panics
  unfold Ends EStateM.bind
  split at first
  · next value middle ran =>
    rw [ran]
    exact second value middle first
  · next ran =>
    rw [ran]
    exact first

/-- The next step is taken where the one before it succeeded, and else its failure is the result. -/
theorem Ends.step {step : EStateM Panic σ (Except Failure α)} {next : α → ExceptT Failure (EStateM Panic σ) β}
    {returns : Except Failure α → σ → Prop} {results : Except Failure β → σ → Prop}
    (first : Ends step before returns panics)
    (failed : ∀ failure middle, returns (.error failure) middle → results (.error failure) middle)
    (second : ∀ value middle, returns (.ok value) middle → Ends (next value).run middle results panics) :
    Ends (ExceptT.mk step >>= next).run before results panics := by
  refine first.bind fun outcome middle reached => ?_
  cases outcome with
  | error failure => exact failed failure middle reached
  | ok value => exact second value middle reached

end

namespace Host

variable {σ Place : Type}

/-- No text can be written by a path to files like these. -/
def Closed (host : Host (EStateM Panic σ)) (scene : σ → Scene Place) (files : Files Place) (path : String) : Prop :=
  ∀ text before, (scene before).files = files → Returns (host.write path text) before fun done _ => done = false

/-- The assumptions on a host. Whatever is asked of it may fail. A look-up may miss a file where the way to it is barred,
and then no text gets there either. -/
structure Sound (host : Host (EStateM Panic σ)) (scene : σ → Scene Place) : Prop where
  standardInput : ∀ before, Returns host.standardInput before fun text? after =>
    (scene before).Untouched (scene after) ∧ ∀ text ∈ text?, (scene before).input = Bytes.ofText text
  read : ∀ path before, Returns (host.read path) before fun text? after =>
    (scene before).Untouched (scene after) ∧ ∀ text ∈ text?, (scene before).files.Holds path (Bytes.ofText text)
  holds : ∀ path before, Returns (host.holds path) before fun there after =>
    (scene before).Untouched (scene after) ∧
      (there = false → (scene before).files.Exists path → host.Closed scene (scene before).files path)
  write : ∀ path text before, Returns (host.write path text) before fun done after =>
    (scene after).output = (scene before).output ∧
      if done then (scene before).files.Puts (scene after).files path (Bytes.ofText text)
      else (scene after).files = (scene before).files
  print : ∀ text before, Returns (host.print text) before fun done after =>
    (scene after).files = (scene before).files ∧
      (scene after).output = if done then (scene before).output ++ text else (scene before).output
  report : ∀ line before, Ends (host.report line) before (fun _ after => (scene before).Untouched (scene after))
    fun after => (scene before).Untouched (scene after)

end Host

end MoveBytecode
