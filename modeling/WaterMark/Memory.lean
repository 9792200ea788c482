import Mathlib.Logic.Function.Basic
import WaterMark.Images
import WaterMark.Library.TaggedLog
import WaterMark.Pixels.Stamp

/-! # The memory that the threads share -/

namespace WaterMark
open TaggedLog Pixels

/-- What a thread does besides exchanging messages and writing pixels. A task
record is known by the number of its allocation; `access` is an access to the
vector of counters of a collector. -/
inductive Event (J : Type) where
  | chunkDone (task : J)
  | save (imageId : ℤ) (path : String) (ptrImg : Ptr) (picture : Buffer)
  | deleteImage (ptrImg : Ptr)
  | deleteTask (record : ℕ)
  | deleteInfo
  | deleteMark
  | access (imageId : ℤ)
  | printOut (line : String)
deriving DecidableEq

def Event.stamped {J : Type} : Event J → Option J
  | .chunkDone task => some task
  | _ => none

def Event.saved {J : Type} : Event J → Option (String × Ptr)
  | .save _ path ptrImg _ => some (path, ptrImg)
  | _ => none

def Event.output {J : Type} : Event J → Option (ℤ × Buffer)
  | .save imageId _ _ picture => some (imageId, picture)
  | _ => none

def Event.deleted {J : Type} : Event J → Option Ptr
  | .deleteImage ptrImg => some ptrImg
  | _ => none

def Event.released {J : Type} : Event J → Option ℕ
  | .deleteTask record => some record
  | _ => none

def Event.accessed {J : Type} : Event J → Option ℤ
  | .access imageId => some imageId
  | _ => none

/-- The pixel arrays, and the events so far, oldest first, each with its thread. -/
structure Memory (T J : Type) where
  pixels : Ptr → Buffer
  events : List (T × Event J)

namespace Memory
variable {T J : Type}

def record (mem : Memory T J) (t : T) (es : List (Event J)) : Memory T J :=
  { mem with events := mem.events ++ es.map fun e => (t, e) }

def write (mem : Memory T J) (ptrDataImg : Ptr) (b : Buffer) : Memory T J :=
  { mem with pixels := Function.update mem.pixels ptrDataImg b }

def eventsOf [DecidableEq T] (t : T) (mem : Memory T J) : List (Event J) := entries t mem.events

section
variable [DecidableEq T] (mem : Memory T J) (t : T) (es : List (Event J)) (p : Ptr) (b : Buffer)

@[simp] theorem eventsOf_record_self :
    (mem.record t es).eventsOf t = mem.eventsOf t ++ es := by
  simp [eventsOf, record]

theorem eventsOf_record_ne {u : T} (h : t ≠ u) :
    (mem.record t es).eventsOf u = mem.eventsOf u := by
  simp [eventsOf, record, entries_map_ne es h]

@[simp] theorem eventsOf_write (u : T) : (mem.write p b).eventsOf u = mem.eventsOf u := rfl

end

end Memory

end WaterMark
