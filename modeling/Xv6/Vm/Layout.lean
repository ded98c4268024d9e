import Mathlib.Algebra.Group.Int.Defs
import Mathlib.Algebra.Group.Nat.Defs
import Mathlib.Data.Int.Cast.Basic
import Mathlib.Tactic.Common

/-! Constants of `memlayout.h` and `mmu.h`. Addresses are numbers below `2 ^ 32`. -/
namespace Xv6

def EXTMEM : ℕ := 0x100000

def PHYSTOP : ℕ := 0xE000000

def DEVSPACE : ℕ := 0xFE000000

def KERNBASE : ℕ := 0x80000000

def KERNLINK : ℕ := KERNBASE + EXTMEM

def PGSIZE : ℕ := 4096

def NPDENTRIES : ℕ := 1024

def NPTENTRIES : ℕ := 1024

def PTE_P : ℕ := 1

def PTE_W : ℕ := 2

def PTE_U : ℕ := 4

def signed (w : ℕ) : ℤ := if w < 2 ^ 31 then (w : ℤ) else (w : ℤ) - 2 ^ 32

def PGROUNDUP (sz : ℕ) : ℕ := (sz + PGSIZE - 1) % 2 ^ 32 / PGSIZE * PGSIZE

def PGROUNDDOWN (a : ℕ) : ℕ := a / PGSIZE * PGSIZE

def PDX (va : ℕ) : ℕ := va / 2 ^ 22 % 2 ^ 10

def PTX (va : ℕ) : ℕ := va / 2 ^ 12 % 2 ^ 10

end Xv6
