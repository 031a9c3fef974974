/-! Numbers handed out in order of first sight: the `n`-th new key gets the number `n`. -/
namespace GuardedSaturation

structure Numbering (α : Type) where
  keys : List α := []
  distinct : keys.Nodup := by simp

namespace Numbering
variable {α : Type}

instance : EmptyCollection (Numbering α) := ⟨{}⟩

def size (n : Numbering α) : Nat := n.keys.length

def key? (n : Numbering α) (index : Nat) : Option α := n.keys[index]?

variable [DecidableEq α]

def get? (n : Numbering α) (k : α) : Option Nat := n.keys.idxOf? k

/-- Gives a key the next number, unless it has one. -/
def note (n : Numbering α) (k : α) : Numbering α :=
  if fresh : k ∈ n.keys then n
  else ⟨n.keys ++ [k], by grind [List.nodup_append, n.distinct]⟩

def noteAll (n : Numbering α) (ks : List α) : Numbering α := ks.foldl note n

/-- The number of a key, given to it now if need be. -/
def number (n : Numbering α) (k : α) : Nat × Numbering α :=
  (n.keys.idxOf k, n.note k)

/-- The numbers of keys, given from left to right where need be. -/
def numberAll (n : Numbering α) (ks : List α) : List Nat × Numbering α :=
  let n := n.noteAll ks
  (ks.map n.keys.idxOf, n)

end Numbering
end GuardedSaturation
