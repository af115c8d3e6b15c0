import Stencil.Error

/-!
# Runs

What happens when a template is rendered, as data: the events in order, and how the run ends. A run
that fails keeps the events before the failure, as a sink keeps what was written to it.
-/

set_option autoImplicit false

namespace Stencil

/-- Something that happens in a run. -/
inductive Event where
  /-- Text of a template is written. -/
  | text (s : String)
  /-- The output at a location is written under some rules. -/
  | output (location : Location) (rules : List Escaper) (s : String)
  /-- A template is about to be embedded; its data is not yet computed. -/
  | enter (name : String)
  /-- The template embedded last is done. -/
  | leave
deriving DecidableEq, Repr

/-- What an event writes. -/
def Event.written : Event → String
  | .text s | .output _ _ s => s
  | .enter _ | .leave => ""

/-- The events of a run and its end. -/
structure Run (α : Type) where
  events : List Event
  outcome : Except Error α

namespace Run

variable {α β : Type}

/-- A run in which nothing happens. -/
protected def pure (a : α) : Run α := ⟨[], .ok a⟩

/-- A run that goes on where another ends well. -/
protected def bind (r : Run α) (next : α → Run β) : Run β :=
  match r.outcome with
  | .ok a => ⟨r.events ++ (next a).events, (next a).outcome⟩
  | .error e => ⟨r.events, .error e⟩

instance : Monad Run where
  pure := Run.pure
  bind := Run.bind

@[simp] theorem bind_of_ok {r : Run α} {a : α} (h : r.outcome = .ok a) (next : α → Run β) :
    r >>= next = ⟨r.events ++ (next a).events, (next a).outcome⟩ := by
  simp [bind, Run.bind, h]

@[simp] theorem bind_of_error {r : Run α} {e : Error} (h : r.outcome = .error e)
    (next : α → Run β) : r >>= next = ⟨r.events, .error e⟩ := by
  simp [bind, Run.bind, h]

instance : LawfulMonad Run :=
  LawfulMonad.mk' Run
    (fun r => by cases h : r.outcome <;> cases r <;> simp_all [Functor.map, Run.bind, Run.pure])
    (fun a next => by simp [pure, bind, Run.pure, Run.bind])
    (fun r first second => by
      cases h : r.outcome with
      | error e => simp [h]
      | ok a => cases h' : (first a).outcome <;> simp [h, h'])

/-- One event. -/
def emit (e : Event) : Run Unit := ⟨[e], .ok ()⟩

/-- A result without events. -/
def ofExcept (r : Except Error α) : Run α := ⟨[], r⟩

/-- What is written in a run. -/
def written (r : Run α) : String :=
  String.join (r.events.map Event.written)

end Run

end Stencil
