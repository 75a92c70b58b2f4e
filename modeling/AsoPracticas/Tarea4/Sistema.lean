import Mathlib.Tactic

/-!
# Sistema — the system calls of the Tarea4 programs

`merge_files`, `mystrings` and `split_files` move bytes with the same idiom,

```
while ((a > 0 && (num = op(fd, buf + off, a)) == -1)) { a = a - num; off = off + num; }
```

for `op` one of `read` and `write`.  This file models the two system calls as an operating system
`SO`, memory as a function of the (signed) offset from the start of a buffer, and the two loops.
A loop carries a bound on its iterations (`fuel`): nothing in the source limits how often a failing
call is repeated.  Its counters are not bounded either, while the `int`s of the source overflow once a call has failed
`2 ^ 31` times in a row.
-/

namespace AsoPracticas.Tarea4

inductive Fallo
  /-- the bound on the iterations of some loop was reached -/
  | combustible
  /-- a store outside the buffer it was meant for -/
  | desbordamiento
  deriving DecidableEq, Repr

/-- Memory around a buffer: `m j` is the byte at `buf + j`. -/
abbrev Memoria := Int → UInt8

/-- The `n` bytes at `buf + off`. -/
def Memoria.rango (m : Memoria) (off n : Int) : List UInt8 :=
  (List.range n.toNat).map fun (j : Nat) => m (off + j)

/-- The memory after `bytes` has been stored at `buf + off`. -/
def Memoria.vuelca (m : Memoria) (off : Int) (bytes : List UInt8) : Memoria := fun j =>
  if off ≤ j ∧ j < off + bytes.length then bytes.getD (j - off).toNat 0 else m j

/-- The memory after `buf[j] = b`. -/
def Memoria.pon (m : Memoria) (j : Int) (b : UInt8) : Memoria := Function.update m j b

/-- An operating system over the states `σ`: `read` takes the descriptor and the count and gives the
result and the bytes delivered; `write` takes the descriptor and the bytes of the range. -/
structure SO (σ : Type) where
  read : σ → Nat → Int → Int × List UInt8 × σ
  write : σ → Nat → List UInt8 → Int × σ

variable {σ : Type}

/-- `while ((a_Escribir > 0 && (num_written = write(fd, buf + escritos, n)) == -1)) …`, where `n` is
computed from `a_Escribir` (`pedir`).  Returns the final `a_Escribir` and `escritos`. -/
def bucleEscritura (so : SO σ) (fd : Nat) (buf : Memoria) (pedir : Int → Int) :
    Nat → Int → Int → σ → Except Fallo (Int × Int × σ)
  | 0, _, _, _ => .error .combustible
  | fuel + 1, a_Escribir, escritos, s =>
    if a_Escribir > 0 then
      let (num_written, s') := so.write s fd (buf.rango escritos (pedir a_Escribir))
      if num_written = -1 then
        bucleEscritura so fd buf pedir fuel (a_Escribir - num_written) (escritos + num_written) s'
      else
        .ok (a_Escribir, escritos, s')
    else
      .ok (a_Escribir, escritos, s)

structure Lectura (σ : Type) where
  a_Leer : Int
  leidos : Int
  num_read : Int
  buf : Memoria
  so : σ

/-- `while ((a_Leer > 0 && (num_read = read(fd, buf + leidos, a_Leer)) == -1)) …`. -/
def bucleLectura (so : SO σ) (fd : Nat) : Nat → Lectura σ → Except Fallo (Lectura σ)
  | 0, _ => .error .combustible
  | fuel + 1, l =>
    if l.a_Leer > 0 then
      let (num_read, bytes, s') := so.read l.so fd l.a_Leer
      let l' := { l with num_read := num_read, buf := l.buf.vuelca l.leidos bytes, so := s' }
      if num_read = -1 then
        bucleLectura so fd fuel { l' with a_Leer := l.a_Leer - num_read, leidos := l.leidos + num_read }
      else
        .ok l'
    else
      .ok l

/-! ## Memory -/

namespace Memoria

@[simp] theorem rango_zero (m : Memoria) (off : Int) : m.rango off 0 = [] := rfl

@[simp] theorem length_rango (m : Memoria) (off n : Int) : (m.rango off n).length = n.toNat := by
  simp [rango]

theorem rango_pon_succ (m : Memoria) (n : Nat) (b : UInt8) :
    (m.pon n b).rango 0 (n + 1 : Nat) = m.rango 0 n ++ [b] := by
  have hkeep : ∀ j ∈ List.range n, (m.pon n b) (0 + (j : Int)) = m (0 + (j : Int)) := by
    intro j hj
    have : (0 : Int) + j ≠ n := by
      have := List.mem_range.1 hj
      omega
    exact Function.update_of_ne this _ _
  simp only [rango, Int.toNat_natCast, List.range_succ, List.map_append, List.map_cons, List.map_nil]
  rw [List.map_congr_left hkeep]
  simp [pon]

theorem vuelca_zero_apply (m : Memoria) (bytes : List UInt8) {j : Nat} (hj : j < bytes.length) :
    m.vuelca 0 bytes j = bytes[j] := by
  simp [vuelca, hj]

end Memoria

/-! ## Systems whose writes complete in full -/

/-- Files behind descriptors: what can still be read through each one (in some form `ρ`) and what
has been written through each one. -/
structure Ficheros (ρ : Type) where
  entradas : Nat → ρ
  salidas : Nat → List UInt8

variable {ρ : Type}

/-- The system in which every `write` completes in full and `read` behaves as `leer` says. -/
def SO.completo (leer : ρ → Int → Int × List UInt8 × ρ) : SO (Ficheros ρ) where
  read s fd n :=
    let (num_read, bytes, resto) := leer (s.entradas fd) n
    (num_read, bytes, { s with entradas := Function.update s.entradas fd resto })
  write s fd bytes :=
    (bytes.length, { s with salidas := Function.update s.salidas fd (s.salidas fd ++ bytes) })

/-- `read` on a regular file: as many bytes as were asked for and are left. -/
def leerRegular (contenido : List UInt8) (n : Int) : Int × List UInt8 × List UInt8 :=
  ((contenido.take n.toNat).length, contenido.take n.toNat, contenido.drop n.toNat)

/-- `read` on a stream that arrives cut into `trozos`: each call delivers the next piece, and `0`
bytes once there is none. -/
def leerTrozos (trozos : List (List UInt8)) (_n : Int) : Int × List UInt8 × List (List UInt8) :=
  match trozos with
  | [] => (0, [], [])
  | t :: ts => (t.length, t, ts)

/-- The ways a stream can arrive through calls that ask for `B` bytes: pieces of `1` to `B`. -/
def TrozosLegales (B : Nat) (trozos : List (List UInt8)) : Prop :=
  ∀ t ∈ trozos, 1 ≤ t.length ∧ t.length ≤ B

instance (B : Nat) (trozos : List (List UInt8)) : Decidable (TrozosLegales B trozos) :=
  inferInstanceAs (Decidable (∀ t ∈ trozos, 1 ≤ t.length ∧ t.length ≤ B))

/-- The file state after `bytes` has been written through `fd`. -/
def Ficheros.escribe (s : Ficheros ρ) (fd : Nat) (bytes : List UInt8) : Ficheros ρ :=
  { s with salidas := Function.update s.salidas fd (s.salidas fd ++ bytes) }

@[simp] theorem Ficheros.escribe_salidas_same (s : Ficheros ρ) (fd : Nat) (bytes : List UInt8) :
    (s.escribe fd bytes).salidas fd = s.salidas fd ++ bytes := by
  simp [escribe]

theorem Ficheros.escribe_salidas_ne (s : Ficheros ρ) {fd fd' : Nat} (h : fd' ≠ fd)
    (bytes : List UInt8) : (s.escribe fd bytes).salidas fd' = s.salidas fd' := by
  simp [escribe, Function.update_of_ne h]

theorem bucleEscritura_completo (leer : ρ → Int → Int × List UInt8 × ρ) (fd : Nat) (buf : Memoria)
    (pedir : Int → Int) (fuel : Nat) {a_Escribir : Int} (escritos : Int) (s : Ficheros ρ)
    (ha : 0 < a_Escribir) :
    bucleEscritura (SO.completo leer) fd buf pedir (fuel + 1) a_Escribir escritos s =
      .ok (a_Escribir, escritos, s.escribe fd (buf.rango escritos (pedir a_Escribir))) := by
  have hne : ((buf.rango escritos (pedir a_Escribir)).length : Int) ≠ -1 := by omega
  simp only [bucleEscritura, gt_iff_lt, ha, if_true, SO.completo, hne, if_false]
  rfl

/-- The read loop on a stream that arrives in pieces: one call, which delivers the next piece. -/
theorem bucleLectura_trozos (fd fuel : Nat) {l : Lectura (Ficheros (List (List UInt8)))} (ha : 0 < l.a_Leer) :
    bucleLectura (SO.completo leerTrozos) fd (fuel + 1) l = .ok { l with
      num_read := ((l.so.entradas fd).headD []).length
      buf := l.buf.vuelca l.leidos ((l.so.entradas fd).headD [])
      so := { l.so with
        entradas := Function.update l.so.entradas fd (l.so.entradas fd).tail } } := by
  cases hent : l.so.entradas fd with
  | nil => simp [bucleLectura, ha, SO.completo, leerTrozos, hent]
  | cons t ts => grind [bucleLectura, SO.completo, leerTrozos]

end AsoPracticas.Tarea4
