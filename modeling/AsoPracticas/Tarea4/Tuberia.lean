import AsoPracticas.Lib.Transition
import Mathlib.Data.PNat.Basic
import Mathlib.Tactic

/-!
# Tuberia — the pipeline that `merge_mystrings_split` sets up

The parent creates two pipes and three children.  Every child rearranges its descriptors and then
becomes one of the stages `merge_files`, `mystrings` and `split_files`; the parent closes its own
descriptors and waits three times.

* `Paso` — one step of one process over the two kernel pipes; any call of a script may fail, which
  ends the process, and a stage may read, write or end whenever it likes;
* `Correcto` — what a script has to make sure of, by recursion on the calls that are left;
* `no_deadlock` — in no reachable state every unfinished process is blocked.
-/

namespace AsoPracticas.Tarea4.Tuberia

open Function (update update_apply update_of_ne update_self)

/-! ## Processes and their scripts -/

/-- The two pipes: left to centre (`pipefdsI_C`) and centre to right (`pipefdsC_D`). -/
inductive Tubo
  | I_C
  | C_D
  deriving DecidableEq, Repr

/-- The ends of a pipe, in the order in which `pipe` returns them. -/
inductive Extremo
  | lectura
  | escritura
  deriving DecidableEq, Repr

inductive Objeto
  | extremo (t : Tubo) (e : Extremo)
  /-- anything that is not one of the two pipes -/
  | otro
  deriving DecidableEq, Repr

inductive Rol
  | padre
  | izquierdo
  | central
  | derecho
  deriving DecidableEq, Repr

/-- The system calls of the scripts; `close t e` and `dup2 t e n` take the descriptor from the array
`pipefds` of `t`. -/
inductive Llamada
  | pipe (t : Tubo)
  | fork (hijo : Rol)
  | close (t : Tubo) (e : Extremo)
  | dup2 (t : Tubo) (e : Extremo) (nuevo : Nat)
  | execvp
  | wait
  deriving DecidableEq, Repr

open Llamada Tubo Extremo Rol

def stdin : Nat := 0
def stdout : Nat := 1

def guion : Rol → List Llamada
  | padre =>
    [pipe I_C, fork izquierdo, close I_C escritura, pipe C_D, fork central, fork derecho,
      close I_C lectura, close C_D lectura, close C_D escritura, wait, wait, wait]
  | izquierdo => [close I_C lectura, dup2 I_C escritura stdout, close I_C escritura, execvp]
  | central =>
    [close C_D lectura, dup2 I_C lectura stdin, close I_C lectura, dup2 C_D escritura stdout,
      close C_D escritura, execvp]
  | derecho => [close C_D escritura, dup2 C_D lectura stdin, close C_D lectura, execvp]

abbrev Tabla := Nat → Option Objeto

/-- The arrays `pipefdsI_C` and `pipefdsC_D`. -/
abbrev Pipefds := Tubo → Extremo → Nat

/-- The table after `pipe` has opened the ends of `t` at `a` and `b`. -/
def conTubo (fds : Tabla) (t : Tubo) (a b : Nat) : Tabla :=
  update (update fds a (some (.extremo t lectura))) b (some (.extremo t escritura))

/-- The array of `t` after `pipe` has returned `a` and `b`. -/
def asigna (v : Pipefds) (t : Tubo) (a b : Nat) : Pipefds :=
  update v t fun e => if e = lectura then a else b

/-- What a stage is doing: its own work, or inside a `read` of the standard input or a `write` to the
standard output. -/
inductive Etapa
  | trabaja
  | lee
  | escribe
  deriving DecidableEq, Repr

/-- Where a process is: in its script, or in the program it has become. -/
inductive Control
  | guion (resto : List Llamada)
  | etapa (e : Etapa)
  deriving DecidableEq, Repr

structure Proceso where
  control : Control
  fds : Tabla
  pipefds : Pipefds

/-- The life of a process; `recogido` says whether `wait` has already returned it. -/
inductive Estado
  | noCreado
  | vivo (p : Proceso)
  | terminado (recogido : Bool)

/-- The four processes and the number of bytes in each pipe. -/
structure Sistema where
  procesos : Rol → Estado
  datos : Tubo → Nat

namespace Sistema

def pon (s : Sistema) (r : Rol) (e : Estado) : Sistema :=
  { s with procesos := update s.procesos r e }

def ponDatos (s : Sistema) (t : Tubo) (n : Nat) : Sistema :=
  { s with datos := update s.datos t n }

/-- Some unfinished process has `o` in its table. -/
def Sostiene (s : Sistema) (r : Rol) (o : Objeto) : Prop :=
  ∃ p, s.procesos r = .vivo p ∧ ∃ fd, p.fds fd = some o

end Sistema

/-- Whether the stage `r` makes the calls of `e`: `merge_files` only writes to its standard output and
`split_files` only reads its standard input. -/
def usa : Rol → Etapa → Bool
  | _, .trabaja => true
  | izquierdo, .escribe => true
  | central, _ => true
  | derecho, .lee => true
  | _, _ => false

section Semantica

variable (cap : Tubo → ℕ+)

/-- A process that cannot go on: `wait` while some child is unfinished and none has ended, `read` of
an empty pipe that somebody can write to, `write` to a full pipe that somebody can read from. -/
def Bloqueado (s : Sistema) (r : Rol) : Prop :=
  ∃ p, s.procesos r = .vivo p ∧
    match p.control with
    | .guion (wait :: _) =>
      (∃ h q, h ≠ padre ∧ s.procesos h = .vivo q) ∧ ∀ h, h ≠ padre → s.procesos h ≠ .terminado false
    | .etapa .lee =>
      ∃ t, p.fds stdin = some (.extremo t lectura) ∧ s.datos t = 0 ∧ ∃ q, s.Sostiene q (.extremo t escritura)
    | .etapa .escribe =>
      ∃ t, p.fds stdout = some (.extremo t escritura) ∧ cap t ≤ s.datos t ∧ ∃ q, s.Sostiene q (.extremo t lectura)
    | _ => False

/-- One step of one process. -/
inductive Paso : Sistema → Sistema → Prop
  /-- a call of a script returns `-1`; the process prints a message and exits -/
  | falla {s r p i g} : s.procesos r = .vivo p → p.control = .guion (i :: g) →
      ¬ Bloqueado cap s r → Paso s (s.pon r (.terminado false))
  | pipe {s r p t g a b} : s.procesos r = .vivo p → p.control = .guion (pipe t :: g) →
      a ≠ b → p.fds a = none → p.fds b = none →
      Paso s ((s.pon r (.vivo
        { control := .guion g
          fds := conTubo p.fds t a b
          pipefds := asigna p.pipefds t a b })).ponDatos t 0)
  | fork {s r p h g} : s.procesos r = .vivo p → p.control = .guion (fork h :: g) → h ≠ r →
      Paso s ((s.pon r (.vivo { p with control := .guion g })).pon h (.vivo { p with control := .guion (guion h) }))
  | close {s r p t e g o} : s.procesos r = .vivo p → p.control = .guion (close t e :: g) →
      p.fds (p.pipefds t e) = some o →
      Paso s (s.pon r (.vivo { p with
        control := .guion g, fds := update p.fds (p.pipefds t e) none }))
  | dup2 {s r p t e n g o} : s.procesos r = .vivo p → p.control = .guion (dup2 t e n :: g) →
      p.fds (p.pipefds t e) = some o →
      Paso s (s.pon r (.vivo { p with
        control := .guion g, fds := update p.fds n (some o) }))
  | execvp {s r p g} : s.procesos r = .vivo p → p.control = .guion (execvp :: g) →
      Paso s (s.pon r (.vivo { p with control := .etapa .trabaja }))
  | wait {s r p g h} : s.procesos r = .vivo p → p.control = .guion (wait :: g) → h ≠ r →
      s.procesos h = .terminado false →
      Paso s ((s.pon r (.vivo { p with control := .guion g })).pon h (.terminado true))
  /-- the end of `main` -/
  | fin {s r p} : s.procesos r = .vivo p → p.control = .guion [] →
      Paso s (s.pon r (.terminado false))
  /-- a stage starts a `read` or a `write` -/
  | llama {s r p e} : s.procesos r = .vivo p → p.control = .etapa .trabaja → usa r e = true →
      Paso s (s.pon r (.vivo { p with control := .etapa e }))
  /-- a stage ends, early or not -/
  | sale {s r p} : s.procesos r = .vivo p → p.control = .etapa .trabaja →
      Paso s (s.pon r (.terminado false))
  /-- a stage opens a file -/
  | abre {s r p fd} : s.procesos r = .vivo p → p.control = .etapa .trabaja → p.fds fd = none →
      Paso s (s.pon r (.vivo { p with fds := update p.fds fd (some .otro) }))
  /-- a stage closes a descriptor -/
  | cierra {s r p fd} : s.procesos r = .vivo p → p.control = .etapa .trabaja →
      Paso s (s.pon r (.vivo { p with fds := update p.fds fd none }))
  | lee {s r p t n} : s.procesos r = .vivo p → p.control = .etapa .lee →
      p.fds stdin = some (.extremo t lectura) → 0 < n → n ≤ s.datos t →
      Paso s ((s.pon r (.vivo { p with control := .etapa .trabaja })).ponDatos t (s.datos t - n))
  /-- the end of the input: the pipe is empty and nobody can write to it -/
  | leeFin {s r p t} : s.procesos r = .vivo p → p.control = .etapa .lee →
      p.fds stdin = some (.extremo t lectura) → s.datos t = 0 →
      (∀ q, ¬ s.Sostiene q (.extremo t escritura)) →
      Paso s (s.pon r (.vivo { p with control := .etapa .trabaja }))
  /-- a `read` of something else returns -/
  | leeOtro {s r p} : s.procesos r = .vivo p → p.control = .etapa .lee →
      (∀ t, p.fds stdin ≠ some (.extremo t lectura)) →
      Paso s (s.pon r (.vivo { p with control := .etapa .trabaja }))
  /-- a `write` puts `n` bytes into the pipe, and returns or goes on with the rest -/
  | escribe {s r p t e} {n : Nat} : s.procesos r = .vivo p → p.control = .etapa .escribe →
      p.fds stdout = some (.extremo t escritura) → (∃ q, s.Sostiene q (.extremo t lectura)) →
      0 < n → s.datos t + n ≤ cap t → (e = .trabaja ∨ e = .escribe) →
      Paso s ((s.pon r (.vivo { p with control := .etapa e })).ponDatos t (s.datos t + n))
  /-- nobody can read from the pipe: the signal `SIGPIPE` kills the writer -/
  | sigpipe {s r p t} : s.procesos r = .vivo p → p.control = .etapa .escribe →
      p.fds stdout = some (.extremo t escritura) →
      (∀ q, ¬ s.Sostiene q (.extremo t lectura)) →
      Paso s (s.pon r (.terminado false))
  /-- a `write` to something else returns -/
  | escribeOtro {s r p} : s.procesos r = .vivo p → p.control = .etapa .escribe →
      (∀ t, p.fds stdout ≠ some (.extremo t escritura)) →
      Paso s (s.pon r (.vivo { p with control := .etapa .trabaja }))

end Semantica

/-- The table a process is started with: descriptors 0 to 2 are open and nothing in it is an end of
the pipes to come. -/
structure Heredada where
  fds : Tabla
  abiertos : ∀ fd ≤ 2, fds fd ≠ none
  ajenos : ∀ fd t e, fds fd ≠ some (.extremo t e)

def inicial (tabla : Heredada) (pipefds : Pipefds) : Sistema where
  procesos
    | padre => .vivo { control := .guion (guion padre), fds := tabla.fds, pipefds }
    | _ => .noCreado
  datos := fun _ => 0

/-- Some process is unfinished and every unfinished process is blocked. -/
def Interbloqueo (cap : Tubo → ℕ+) (s : Sistema) : Prop :=
  (∃ r p, s.procesos r = .vivo p) ∧ ∀ r p, s.procesos r = .vivo p → Bloqueado cap s r

/-! ## What a script has to make sure of -/

/-- The ends a process must not hold any more when it can block: as a stage, or waiting. -/
def prohibidos : Rol → List Objeto
  | padre => [.extremo I_C lectura, .extremo I_C escritura, .extremo C_D lectura, .extremo C_D escritura]
  | izquierdo => [.extremo I_C lectura, .extremo C_D lectura, .extremo C_D escritura]
  | central => [.extremo I_C escritura, .extremo C_D lectura]
  -- the right child never closes the end of the first pipe it inherits
  | derecho => [.extremo I_C escritura, .extremo C_D escritura]

def Cerrado (r : Rol) (fds : Tabla) : Prop :=
  ∀ fd o, fds fd = some o → o ∉ prohibidos r

/-- The rest of a script leaves the process `Cerrado` before it can block, whatever descriptors
`pipe` returns; `nace` is what has to hold of a child when it is created. -/
def Correcto (nace : Rol → Tabla → Pipefds → Prop) (r : Rol) : List Llamada → Tabla → Pipefds → Prop
  | [], _, _ => True
  | pipe t :: g, fds, v =>
    ∀ a b, a ≠ b → fds a = none → fds b = none → Correcto nace r g (conTubo fds t a b) (asigna v t a b)
  | fork h :: g, fds, v => nace h fds v ∧ Correcto nace r g fds v
  | close t e :: g, fds, v => Correcto nace r g (update fds (v t e) none) v
  | dup2 t e n :: g, fds, v => ∀ o, fds (v t e) = some o → Correcto nace r g (update fds n (some o)) v
  | execvp :: _, fds, _ => r ≠ padre ∧ Cerrado r fds
  | wait :: g, fds, v => r = padre ∧ Cerrado r fds ∧ Correcto nace r g fds v

/-- A child starts its own script; it creates no children. -/
def Nace (h : Rol) (fds : Tabla) (v : Pipefds) : Prop :=
  h ≠ padre ∧ Correcto (fun _ _ _ => False) h (guion h) fds v

def naceDe : Rol → Rol → Tabla → Pipefds → Prop
  | padre => Nace
  | _ => fun _ _ _ => False

def Sano (r : Rol) (p : Proceso) : Prop :=
  match p.control with
  | .guion g => Correcto (naceDe r) r g p.fds p.pipefds
  | .etapa _ => r ≠ padre ∧ Cerrado r p.fds

theorem Sano.correcto {r : Rol} {p : Proceso} (h : Sano r p) {g : List Llamada}
    (hc : p.control = .guion g) : Correcto (naceDe r) r g p.fds p.pipefds := by
  simpa only [Sano, hc] using h

theorem Sano.cerrado {r : Rol} {p : Proceso} (h : Sano r p) {e : Etapa}
    (hc : p.control = .etapa e) : r ≠ padre ∧ Cerrado r p.fds := by
  simpa only [Sano, hc] using h

theorem Nace.sano {hijo : Rol} {p : Proceso} (h : Nace hijo p.fds p.pipefds)
    (hc : p.control = .guion (guion hijo)) : Sano hijo p := by
  grind [Nace, guion, Sano, naceDe]

def Sanos (s : Sistema) : Prop :=
  ∀ r p, s.procesos r = .vivo p → Sano r p

theorem Sanos.pon {s : Sistema} (h : Sanos s) {r : Rol} {e : Estado}
    (he : ∀ p, e = .vivo p → Sano r p) : Sanos (s.pon r e) := by
  intro r' p hp
  by_cases hr : r' = r
  · subst hr
    exact he p (by simpa [Sistema.pon] using hp)
  · exact h r' p (by simpa [Sistema.pon, hr] using hp)

theorem Sanos.ponVivo {s : Sistema} (h : Sanos s) {r : Rol} {p : Proceso} (hp : Sano r p) : Sanos (s.pon r (.vivo p)) :=
  h.pon fun q hq => by
    cases hq
    exact hp

theorem Sanos.ponTerminado {s : Sistema} (h : Sanos s) (r : Rol) (recogido : Bool) :
    Sanos (s.pon r (.terminado recogido)) :=
  h.pon fun _ hq => by cases hq

variable {fds : Tabla}

theorem Cerrado.update {r : Rol} (h : Cerrado r fds) (fd : Nat) {o : Option Objeto}
    (ho : o = none ∨ o = some .otro) : Cerrado r (update fds fd o) := by
  intro fd' o' ho'
  by_cases hfd : fd' = fd
  · subst hfd
    rw [update_self] at ho'
    rcases ho with rfl | rfl
    · cases ho'
    · cases ho'
      cases r <;> decide
  · rw [update_of_ne hfd] at ho'
    exact h fd' o' ho'

/-- Every step keeps the invariant: what a script has to make sure of is stated call by call, and a
stage gains no access to a pipe. -/
theorem Sanos.paso {cap : Tubo → ℕ+} {s s' : Sistema} (h : Sanos s) (hpaso : Paso cap s s') :
    Sanos s' := by
  cases hpaso with
  | falla hp hc hb => exact h.ponTerminado _ _
  | pipe hp hc hab ha hb => exact h.ponVivo ((h _ _ hp).correcto hc _ _ hab ha hb)
  | @fork r p hijo g hp hc hne =>
    obtain ⟨hnace, hresto⟩ := (h r p hp).correcto hc
    have hrest : Sano r { p with control := .guion g } := hresto
    cases r with
    | padre => exact (h.ponVivo hrest).ponVivo (Nace.sano hnace rfl)
    | izquierdo | central | derecho => exact hnace.elim
  | close hp hc ho => exact h.ponVivo ((h _ _ hp).correcto hc)
  | dup2 hp hc ho => exact h.ponVivo ((h _ _ hp).correcto hc _ ho)
  | execvp hp hc => exact h.ponVivo ((h _ _ hp).correcto hc)
  | @wait r p g hijo hp hc hne hz =>
    have hrest : Sano r { p with control := .guion g } := ((h r p hp).correcto hc).2.2
    exact (h.ponVivo hrest).ponTerminado _ _
  | fin hp hc => exact h.ponTerminado _ _
  | llama hp hc hu => exact h.ponVivo ((h _ _ hp).cerrado hc)
  | sale hp hc => exact h.ponTerminado _ _
  | @abre r p fd hp hc hfd =>
    obtain ⟨hne, hcerr⟩ := (h r p hp).cerrado hc
    have hsano : Sano r { p with fds := update p.fds fd (some .otro) } := by
      simpa only [Sano, hc] using ⟨hne, hcerr.update fd (.inr rfl)⟩
    exact h.ponVivo hsano
  | @cierra r p fd hp hc =>
    obtain ⟨hne, hcerr⟩ := (h r p hp).cerrado hc
    have hsano : Sano r { p with fds := update p.fds fd none } := by
      simpa only [Sano, hc] using ⟨hne, hcerr.update fd (.inl rfl)⟩
    exact h.ponVivo hsano
  | lee hp hc ht hn hle => exact h.ponVivo ((h _ _ hp).cerrado hc)
  | leeFin hp hc ht h0 hw => exact h.ponVivo ((h _ _ hp).cerrado hc)
  | leeOtro hp hc ht => exact h.ponVivo ((h _ _ hp).cerrado hc)
  | escribe hp hc ht hr hn hle he => exact h.ponVivo ((h _ _ hp).cerrado hc)
  | sigpipe hp hc ht hr => exact h.ponTerminado _ _
  | escribeOtro hp hc ht => exact h.ponVivo ((h _ _ hp).cerrado hc)

/-- The only descriptor that refers to `o`, if any. -/
def Solo (fds : Tabla) (o : Objeto) (fd : Nat) : Prop :=
  ∀ fd', fds fd' = some o → fd' = fd

def Sin (fds : Tabla) (o : Objeto) : Prop :=
  ∀ fd, fds fd ≠ some o

section Tablas

variable {fds : Tabla} {o : Objeto} {t : Tubo} {a b fd : Nat}

theorem Sin.cierra (h : Sin fds o) (fd : Nat) : Sin (update fds fd none) o := by
  intro fd' hfd
  simp only [Sin, update_apply] at *
  grind

theorem Solo.cierra (h : Solo fds o fd) : Sin (update fds fd none) o := by
  intro fd' hfd
  simp only [Solo, update_apply] at *
  grind

theorem Solo.cierraOtro (h : Solo fds o fd) (fd' : Nat) : Solo (update fds fd' none) o fd := by
  intro fd'' hfd
  simp only [Solo, update_apply] at *
  grind

theorem Solo.conTubo (h : Solo fds o fd) (ho : ∀ e, o ≠ .extremo t e) : Solo (conTubo fds t a b) o fd := by
  intro fd' hfd
  simp only [Solo, Tuberia.conTubo, update_apply] at *
  grind

theorem Sin.conTubo (h : Sin fds o) (ho : ∀ e, o ≠ .extremo t e) : Sin (conTubo fds t a b) o := by
  intro fd' hfd
  simp only [Sin, Tuberia.conTubo, update_apply] at *
  grind

theorem solo_conTubo (h : ∀ e, Sin fds (.extremo t e)) (v : Pipefds) (e : Extremo) :
    Solo (conTubo fds t a b) (.extremo t e) (asigna v t a b t e) := by
  intro fd hfd
  have he := h e fd
  simp only [conTubo, asigna, update_apply] at *
  cases e <;> grind

theorem conTubo_asigna (hab : a ≠ b) (fds : Tabla) (t : Tubo) (v : Pipefds) (e : Extremo) :
    conTubo fds t a b (asigna v t a b t e) = some (.extremo t e) := by
  cases e with
  | lectura => simp [conTubo, asigna, hab]
  | escritura => simp [conTubo, asigna]

theorem conTubo_of_some (ha : fds a = none) (hb : fds b = none) (h : fds fd = some o) :
    conTubo fds t a b fd = some o := by
  simp only [conTubo, update_apply]
  grind

end Tablas

theorem nace_izquierdo {v : Pipefds} (hne : v I_C lectura ≠ v I_C escritura)
    (hr : Solo fds (.extremo I_C lectura) (v I_C lectura))
    (hw : fds (v I_C escritura) = some (.extremo I_C escritura))
    (hCr : Sin fds (.extremo C_D lectura)) (hCw : Sin fds (.extremo C_D escritura)) :
    Nace izquierdo fds v := by
  refine ⟨by decide, ?_⟩
  intro o ho
  refine ⟨by decide, ?_⟩
  intro fd o' ho'
  grind [Solo, Sin, Nace, prohibidos]

/-- The central child, created when the parent has closed the write end of the first pipe. -/
theorem nace_central {v : Pipefds} (hIw : Sin fds (.extremo I_C escritura))
    (hCr : Solo fds (.extremo C_D lectura) (v C_D lectura))
    (hIr : fds (v I_C lectura) = some (.extremo I_C lectura))
    (hCw : fds (v C_D escritura) = some (.extremo C_D escritura)) (hgt : 2 < v C_D escritura) :
    Nace central fds v := by
  refine ⟨by decide, ?_⟩
  intro o ho o2 ho2
  refine ⟨by decide, ?_⟩
  intro fd o' ho'
  simp only [Solo, Sin, update_apply, prohibidos, List.mem_cons, List.not_mem_nil, stdin, stdout] at *
  grind

theorem nace_derecho {v : Pipefds} (hIw : Sin fds (.extremo I_C escritura))
    (hCw : Solo fds (.extremo C_D escritura) (v C_D escritura))
    (hCr : fds (v C_D lectura) = some (.extremo C_D lectura)) :
    Nace derecho fds v := by
  refine ⟨by decide, ?_⟩
  intro o ho
  refine ⟨by decide, ?_⟩
  intro fd o' ho'
  grind [Sin, Solo, Nace, prohibidos, stdin]

theorem correcto_cierre {v : Pipefds} (hIw : Sin fds (.extremo I_C escritura))
    (hIr : Solo fds (.extremo I_C lectura) (v I_C lectura))
    (hCr : Solo fds (.extremo C_D lectura) (v C_D lectura))
    (hCw : Solo fds (.extremo C_D escritura) (v C_D escritura)) :
    Correcto Nace padre [close I_C lectura, close C_D lectura, close C_D escritura, wait, wait, wait] fds v := by
  have hcerrado : Cerrado padre (update (update (update fds
      (v I_C lectura) none) (v C_D lectura) none) (v C_D escritura) none) := by
    intro fd o ho
    simp only [Solo, Sin, update_apply, prohibidos, List.mem_cons, List.not_mem_nil] at *
    grind
  exact ⟨rfl, hcerrado, rfl, hcerrado, rfl, hcerrado, trivial⟩

theorem two_lt_of_free (h : ∀ fd ≤ 2, fds fd ≠ none) {fd : Nat} (hfd : fds fd = none) : 2 < fd := by
  by_contra hle
  exact h fd (Nat.le_of_not_lt hle) hfd

theorem correcto_padre (tabla : Heredada) (v : Pipefds) : Correcto Nace padre (guion padre) tabla.fds v := by
  have hsin : ∀ t e, Sin tabla.fds (.extremo t e) := fun t e fd => tabla.ajenos fd t e
  intro a b hab ha hb
  -- the first pipe exists: the left child is created
  have hI := solo_conTubo (a := a) (b := b) (hsin I_C) v
  have hC : ∀ e, Sin (conTubo tabla.fds I_C a b) (.extremo C_D e) := fun e =>
    (hsin C_D e).conTubo (by simp)
  refine ⟨nace_izquierdo (by simpa [asigna] using hab) (hI lectura)
    (conTubo_asigna hab _ _ _ _) (hC lectura) (hC escritura), ?_⟩
  -- the parent closes its write end and creates the second pipe
  have hw : asigna v I_C a b I_C escritura = b := by simp [asigna]
  have hr : asigna v I_C a b I_C lectura = a := by simp [asigna]
  have hIr : update (conTubo tabla.fds I_C a b) b none a = some (.extremo I_C lectura) := by
    have hread := conTubo_asigna hab tabla.fds I_C v lectura
    rw [hr] at hread
    rw [update_of_ne hab, hread]
  have hopen : ∀ fd ≤ 2, update (conTubo tabla.fds I_C a b) b none fd ≠ none := by
    intro fd hfd
    have := two_lt_of_free tabla.abiertos hb
    obtain ⟨o, ho⟩ := Option.ne_none_iff_exists'.1 (tabla.abiertos fd hfd)
    rw [update_of_ne (by omega), conTubo_of_some ha hb ho]
    simp
  have hIw := (hI escritura).cierra
  have hIr' := (hI lectura).cierraOtro b
  intro c d hcd hc hd
  have hCsolo := solo_conTubo (a := c) (b := d) (fun e => (hC e).cierra b) (asigna v I_C a b)
  have hIsin := hIw.conTubo (t := C_D) (a := c) (b := d) (by simp)
  have hIread := hIr'.conTubo (t := C_D) (a := c) (b := d) (by simp)
  have hvI : asigna (asigna v I_C a b) C_D c d I_C lectura = a := by simp [asigna]
  refine ⟨nace_central hIsin (hCsolo lectura) ?_ (conTubo_asigna hcd _ _ _ _) ?_,
    nace_derecho hIsin (hCsolo escritura) (conTubo_asigna hcd _ _ _ _),
    correcto_cierre hIsin (by rwa [hvI]) (hCsolo lectura) (hCsolo escritura)⟩
  · rw [hvI]
    exact conTubo_of_some hc hd hIr
  · simpa [asigna] using two_lt_of_free hopen hd

/-! ## No deadlock -/

section Interbloqueo

variable {cap : Tubo → ℕ+} {s : Sistema}

theorem sanos_inicial (tabla : Heredada) (v : Pipefds) : Sanos (inicial tabla v) := by
  intro r p hp
  cases r with
  | padre =>
    cases hp
    exact correcto_padre tabla v
  | izquierdo | central | derecho => cases hp

theorem Bloqueado.casos {r : Rol} (hb : Bloqueado cap s r) {p : Proceso} (hp : s.procesos r = .vivo p) :
    (∃ g, p.control = .guion (wait :: g) ∧ ∃ h q, h ≠ padre ∧ s.procesos h = .vivo q) ∨
    (p.control = .etapa .lee ∧ ∃ t, p.fds stdin = some (.extremo t lectura) ∧ s.datos t = 0 ∧
      ∃ q, s.Sostiene q (.extremo t escritura)) ∨
    (p.control = .etapa .escribe ∧ ∃ t, p.fds stdout = some (.extremo t escritura) ∧
      cap t ≤ s.datos t ∧ ∃ q, s.Sostiene q (.extremo t lectura)) := by
  obtain ⟨q, hq, hcontrol⟩ := hb
  grind

theorem Bloqueado.cerrado (hs : Sanos s) {r : Rol} (hb : Bloqueado cap s r) {p : Proceso}
    (hp : s.procesos r = .vivo p) : Cerrado r p.fds := by
  have hsano := hs r p hp
  rcases hb.casos hp with ⟨g, hc, -⟩ | ⟨hc, -⟩ | ⟨hc, -⟩
  · exact (hsano.correcto hc).2.1
  · exact (hsano.cerrado hc).2
  · exact (hsano.cerrado hc).2

theorem Interbloqueo.permitido (hs : Sanos s) (hd : Interbloqueo cap s) {r : Rol} {o : Objeto}
    (h : s.Sostiene r o) : o ∉ prohibidos r := by
  obtain ⟨p, hp, fd, hfd⟩ := h
  exact (hd.2 r p hp).cerrado hs hp fd o hfd

theorem Interbloqueo.hijo (hs : Sanos s) (hd : Interbloqueo cap s) {r : Rol} {p : Proceso}
    (hne : r ≠ padre) (hp : s.procesos r = .vivo p) :
    (∃ t, .extremo t lectura ∉ prohibidos r ∧ s.datos t = 0 ∧ ∃ q, s.Sostiene q (.extremo t escritura)) ∨
    (∃ t, .extremo t escritura ∉ prohibidos r ∧ cap t ≤ s.datos t ∧ ∃ q, s.Sostiene q (.extremo t lectura)) := by
  rcases (hd.2 r p hp).casos hp with ⟨g, hc, -⟩ | ⟨-, t, ht, h0, hw⟩ | ⟨-, t, ht, hfull, hr⟩
  · exact absurd ((hs r p hp).correcto hc).1 hne
  · exact .inl ⟨t, hd.permitido hs ⟨p, hp, _, ht⟩, h0, hw⟩
  · exact .inr ⟨t, hd.permitido hs ⟨p, hp, _, ht⟩, hfull, hr⟩

theorem Interbloqueo.escritor (hs : Sanos s) (hd : Interbloqueo cap s) {q : Rol} {t : Tubo}
    (h : s.Sostiene q (.extremo t escritura)) :
    (t = I_C ∧ q = izquierdo) ∨ (t = C_D ∧ q = central) := by
  have hno := hd.permitido hs h
  cases q <;> cases t <;> simp [prohibidos] at hno ⊢

theorem Interbloqueo.lector (hs : Sanos s) (hd : Interbloqueo cap s) {q : Rol} {t : Tubo}
    (h : s.Sostiene q (.extremo t lectura)) :
    q = derecho ∨ (t = I_C ∧ q = central) := by
  have hno := hd.permitido hs h
  cases q <;> cases t <;> simp [prohibidos] at hno ⊢

/-- In a deadlock nobody can write to the first pipe: its writer would wait for room in it, and so
would not be waited for. -/
theorem Interbloqueo.lleno (hs : Sanos s) (hd : Interbloqueo cap s) {q : Rol}
    (h : s.Sostiene q (.extremo I_C escritura)) : cap I_C ≤ s.datos I_C := by
  rcases hd.escritor hs h with ⟨-, rfl⟩ | ⟨habs, -⟩
  · obtain ⟨p, hp, -⟩ := h
    rcases hd.hijo hs (by decide) hp with ⟨t, hno, -⟩ | ⟨t, hno, hfull, -⟩
    · cases t <;> simp [prohibidos] at hno
    · cases t with
      | I_C => exact hfull
      | C_D => simp [prohibidos] at hno
  · cases habs

theorem Interbloqueo.noVacio (hs : Sanos s) (hd : Interbloqueo cap s) (h0 : s.datos I_C = 0)
    {q : Rol} : ¬ s.Sostiene q (.extremo I_C escritura) := by
  intro h
  have hfull := hd.lleno hs h
  have hpos := (cap I_C).pos
  omega

theorem not_interbloqueo (hs : Sanos s) : ¬ Interbloqueo cap s := by
  intro hd
  have hpos := (cap C_D).pos
  -- the right child would wait for the central one, and that one for the left one
  have hderecho : ∀ p, s.procesos derecho ≠ .vivo p := by
    intro p hp
    rcases hd.hijo hs (by decide) hp with ⟨t, -, h0, q, hq⟩ | ⟨t, hno, -⟩
    · cases t with
      | I_C => exact hd.noVacio hs h0 hq
      | C_D =>
        rcases hd.escritor hs hq with ⟨habs, -⟩ | ⟨-, rfl⟩
        · cases habs
        · obtain ⟨p', hp', -⟩ := hq
          rcases hd.hijo hs (by decide) hp' with ⟨t, hno, h0', q', hq'⟩ | ⟨t, hno, hfull, -⟩
          · cases t with
            | I_C => exact hd.noVacio hs h0' hq'
            | C_D => simp [prohibidos] at hno
          · cases t with
            | I_C => simp [prohibidos] at hno
            | C_D => omega
    · cases t <;> simp [prohibidos] at hno
  have hcentral : ∀ p, s.procesos central ≠ .vivo p := by
    intro p hp
    rcases hd.hijo hs (by decide) hp with ⟨t, hno, h0, q, hq⟩ | ⟨t, hno, -, q, hq⟩
    · cases t with
      | I_C => exact hd.noVacio hs h0 hq
      | C_D => simp [prohibidos] at hno
    · rcases hd.lector hs hq with rfl | ⟨rfl, -⟩
      · obtain ⟨p', hp', -⟩ := hq
        exact hderecho p' hp'
      · simp [prohibidos] at hno
  have hizquierdo : ∀ p, s.procesos izquierdo ≠ .vivo p := by
    intro p hp
    rcases hd.hijo hs (by decide) hp with ⟨t, hno, -⟩ | ⟨t, -, -, q, hq⟩
    · cases t <;> simp [prohibidos] at hno
    · have hlector := hd.lector hs hq
      obtain ⟨p', hp', -⟩ := hq
      grind
  have hhijos : ∀ r p, r ≠ padre → s.procesos r ≠ .vivo p := by
    intro r p hne
    cases r with
    | padre => exact absurd rfl hne
    | izquierdo => exact hizquierdo p
    | central => exact hcentral p
    | derecho => exact hderecho p
  -- the parent only waits for an unfinished child
  obtain ⟨r, p, hp⟩ := hd.1
  by_cases hr : r = padre
  · subst hr
    rcases (hd.2 padre p hp).casos hp with ⟨-, -, h, q, hne, hq⟩ | ⟨hc, -⟩ | ⟨hc, -⟩
    · exact hhijos h q hne hq
    · exact ((hs padre p hp).cerrado hc).1 rfl
    · exact ((hs padre p hp).cerrado hc).1 rfl
  · exact hhijos r p hr hp

/-- However the steps of the four processes interleave, whatever calls fail, however much data there
is and whenever a stage ends: no reachable state is a deadlock. -/
theorem no_deadlock (cap : Tubo → ℕ+) (tabla : Heredada) (pipefds : Pipefds) (s : Sistema)
    (hreach : Relation.ReflTransGen (Paso cap) (inicial tabla pipefds) s) :
    ¬ Interbloqueo cap s := by
  apply not_interbloqueo
  exact Lib.invariant_of_reachable _ (sanos_inicial tabla pipefds)
    (fun _ _ hs hpaso => hs.paso hpaso) hreach

def terminal : Heredada where
  fds fd := if fd ≤ 2 then some .otro else none
  abiertos fd hfd := by simp [hfd]
  ajenos fd t e := by
    by_cases hfd : fd ≤ 2
    · simp [hfd]
    · simp [hfd]

/-- The first pipe has been created, at descriptors 3 and 4. -/
theorem no_deadlock_pipe :
    ¬ Interbloqueo (fun _ => 1)
      (((inicial terminal fun _ _ => 0).pon padre (.vivo
        { control := .guion (guion padre).tail
          fds := conTubo terminal.fds I_C 3 4
          pipefds := asigna (fun _ _ => 0) I_C 3 4 })).ponDatos I_C 0) :=
  no_deadlock _ terminal (fun _ _ => 0) _
    (.single (Paso.pipe (r := padre) (t := I_C) (g := (guion padre).tail)
      (p := { control := .guion (guion padre), fds := terminal.fds, pipefds := fun _ _ => 0 })
      rfl rfl (by decide) rfl rfl))

end Interbloqueo

end AsoPracticas.Tarea4.Tuberia
