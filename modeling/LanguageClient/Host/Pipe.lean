import LanguageClient.Bytes
/-
  LanguageClient.Host.Pipe — bytes on their way.

  A pipe gives out bytes in the order in which they were put in. What is to be given out
  next is kept apart from the chunks that were put in since, so that neither end has to go
  through all of it.

  - `content` is everything that is in a pipe; `push` adds to its end, `take` gives out some
    of its beginning.
-/

namespace LanguageClient.Host

structure Pipe where
  /-- What is given out next. -/
  front : Bytes := []
  /-- The chunks after it, last first. -/
  back : List Bytes := []
  size : Nat := 0
  deriving Repr

namespace Pipe

def content (p : Pipe) : Bytes := p.front ++ p.back.reverse.flatten

def isEmpty (p : Pipe) : Bool := p.size == 0

def push (p : Pipe) (b : Bytes) : Pipe := { p with back := b :: p.back, size := p.size + b.length }

def take (p : Pipe) (n : Nat) : Bytes × Pipe :=
  let all := if p.front.isEmpty then p.back.reverse.flatten else p.front
  let back := if p.front.isEmpty then [] else p.back
  let taken := all.take n
  (taken, ⟨all.drop n, back, p.size - taken.length⟩)

end Pipe

end LanguageClient.Host
