import Mathlib.Tactic

/-!
# Nodes and edges of the embedded graph

`Edges.h` and the number coding of `Encoding.h`.  A node is packed into one 64-bit
word, whose upper 48 bits are an address and whose lower 16 bits a local index, each
plus one.  While a graph is written its addresses are indices of its symbol table;
when it is read they are addresses of the object.

Whether assertions are checked depends on the build; `asserts` says so throughout.
-/
namespace Bracelet.Edges

abbrev Bytes := List UInt8

def ascii (text : String) : Bytes := text.toList.map fun c => UInt8.ofNat c.toNat

/-! ## Results -/

inductive Failure
  /-- An `Error`, with its message and the contexts added to it. -/
  | error (messages : List String)
  /-- A failed assertion. -/
  | abort
  /-- The model of a loop ran out of steps. -/
  | diverges
  deriving DecidableEq, Repr

abbrev Result := Except Failure

/-- `BRACELET_ENSURE` -/
def ensure (cond : Bool) (message : String) : Result Unit :=
  if cond then .ok () else .error (.error [message])

/-- `BRACELET_TRY_CONTEXT` -/
def tryContext {α : Type} (r : Result α) (context : String) : Result α :=
  match r with
  | .error (.error messages) => .error (.error (messages ++ [context]))
  | r => r

def assert (asserts : Bool) (cond : Bool) : Result Unit :=
  if asserts && !cond then .error .abort else .ok ()

@[simp] theorem ok_bind {α β : Type} (a : α) (f : α → Result β) :
    (Except.ok a : Result α) >>= f = f a := rfl

theorem assert_bind {asserts : Bool} {α : Type} {cond : Bool} {k : Unit → Result α} {a : α}
    (h : (assert asserts cond >>= k) = .ok a) : k () = .ok a := by
  unfold assert at h
  split at h
  · cases h
  · exact h

theorem bind_ok {ε α β : Type} {x : Except ε α} {k : α → Except ε β} {b : β}
    (h : x >>= k = .ok b) : ∃ a, x = .ok a ∧ k a = .ok b := by
  cases x with
  | error e => cases h
  | ok a => exact ⟨a, rfl, h⟩

/-- What every step keeps holds after the steps. -/
theorem foldlM_keeps {ε σ α : Type} {P : σ → Prop} {step : σ → α → Except ε σ} {l : List α}
    (hstep : ∀ s, P s → ∀ a ∈ l, ∀ s', step s a = .ok s' → P s') {s s' : σ} (hs : P s)
    (h : l.foldlM step s = .ok s') : P s' := by
  induction l generalizing s with
  | nil => exact Except.ok.inj h ▸ hs
  | cons a l ih =>
    rw [List.foldlM_cons] at h
    obtain ⟨s₁, hone, h⟩ := bind_ok h
    exact ih (fun s hs b hb => hstep s hs b (List.mem_cons_of_mem a hb))
      (hstep s hs a List.mem_cons_self s₁ hone) h

/-! Steps that are taken one by one. -/

theorem mapM_ok {ε α β : Type} {step : α → Except ε β} {spec : α → β} {l : List α} {bs : List β}
    (hstep : ∀ a ∈ l, ∀ b, step a = .ok b → b = spec a) (h : l.mapM step = .ok bs) :
    bs = l.map spec := by
  induction l generalizing bs with
  | nil => exact (Except.ok.inj h).symm
  | cons a l ih =>
    rw [List.mapM_cons] at h
    obtain ⟨b, hb, h⟩ := bind_ok h
    obtain ⟨bs', hbs', h⟩ := bind_ok h
    obtain rfl := Except.ok.inj h
    rw [List.map_cons, hstep a List.mem_cons_self b hb,
      ih (fun x hx => hstep x (List.mem_cons_of_mem a hx)) hbs']

theorem mapM_isOk_iff {ε α β : Type} {f : α → Except ε β} {l : List α} :
    (∃ l', l.mapM f = .ok l') ↔ ∀ a ∈ l, ∃ b, f a = .ok b := by
  induction l with
  | nil => simp [pure, Except.pure]
  | cons a l ih =>
    rw [List.forall_mem_cons, ← ih]
    constructor
    · rintro ⟨l', h⟩
      rw [List.mapM_cons] at h
      obtain ⟨b, hb, h⟩ := bind_ok h
      obtain ⟨bs, hbs, -⟩ := bind_ok h
      exact ⟨⟨b, hb⟩, bs, hbs⟩
    · rintro ⟨⟨b, hb⟩, bs, hbs⟩
      exact ⟨b :: bs, by rw [List.mapM_cons, hb, hbs]; rfl⟩

theorem mem_of_mapM {ε α β : Type} {f : α → Except ε β} {l : List α} {l' : List β}
    (h : l.mapM f = .ok l') {b : β} : b ∈ l' ↔ ∃ a ∈ l, f a = .ok b := by
  induction l generalizing l' with
  | nil =>
    obtain rfl := Except.ok.inj h
    simp
  | cons a l ih =>
    rw [List.mapM_cons] at h
    obtain ⟨c, hc, h⟩ := bind_ok h
    obtain ⟨cs, hcs, h⟩ := bind_ok h
    obtain rfl := Except.ok.inj h
    rw [List.exists_mem_cons_iff, ← ih hcs, List.mem_cons, hc, Except.ok.injEq, eq_comm]

@[simp] theorem ensure_true (message : String) : ensure true message = .ok () := rfl

@[simp] theorem assert_true (asserts : Bool) : assert asserts true = .ok () := by
  simp [assert]

@[simp] theorem tryContext_ok {α : Type} (a : α) (context : String) :
    tryContext (.ok a) context = .ok a := rfl

theorem tryContext_eq_ok {α : Type} {r : Result α} {context : String} {a : α}
    (h : tryContext r context = .ok a) : r = .ok a := by
  unfold tryContext at h
  split at h
  · cases h
  · exact h

/-! ## Nodes -/

structure Node where
  m_raw : UInt64
  deriving DecidableEq, Repr

namespace Node

/-- The packed symbol. -/
def ofSymbol (addr : UInt64) : Node := ⟨(addr + 1) <<< 16⟩

/-- The packed local. -/
def ofLocal (symbol local_idx : UInt64) : Node := ⟨((symbol + 1) <<< 16) ||| (local_idx + 1)⟩

/-- `Node::symbol(addr)` -/
def mkSymbol (asserts : Bool) (addr : UInt64) : Result Node := do
  assert asserts ((addr + 1) >>> 48 == 0)
  return ofSymbol addr

/-- `Node::local(symbol, local_idx)` -/
def mkLocal (asserts : Bool) (symbol local_idx : UInt64) : Result Node := do
  assert asserts ((symbol + 1) >>> 48 == 0)
  assert asserts (local_idx + 1 < 0x10000)
  return ofLocal symbol local_idx

/-- Nodes that are not null. -/
def valid (n : Node) : Bool := n.m_raw != 0

def symbol (n : Node) : UInt64 := (n.m_raw >>> 16) - 1

def local_idx (n : Node) : Option UInt16 :=
  let raw_local := n.m_raw &&& 0xffff
  if raw_local == 0 then none else some (raw_local - 1).toUInt16

end Node

/-- A number that fits the address field of a node. -/
def Packable (addr : UInt64) : Prop := addr.toNat < 2 ^ 48 - 1

theorem Packable.bound {addr : UInt64} (h : Packable addr) : (addr + 1) >>> 48 = 0 := by
  apply UInt64.toNat_inj.mp
  unfold Packable at h
  simp only [UInt64.toNat_shiftRight, UInt64.toNat_add, UInt64.toNat_one, UInt64.toNat_zero]
  have : (addr.toNat + 1) % 2 ^ 64 = addr.toNat + 1 := by omega
  rw [this]
  simp [Nat.shiftRight_eq_div_pow]
  omega

namespace Node

theorem mkSymbol_eq {asserts : Bool} {addr : UInt64} (h : Packable addr) :
    mkSymbol asserts addr = .ok (ofSymbol addr) := by
  simp [mkSymbol, h.bound]

theorem mkLocal_eq {asserts : Bool} {symbol local_idx : UInt64} (h : Packable symbol)
    (hi : local_idx.toNat < 65535) :
    mkLocal asserts symbol local_idx = .ok (ofLocal symbol local_idx) := by
  have hlt : local_idx + 1 < 0x10000 := by
    rw [UInt64.lt_iff_toNat_lt, UInt64.toNat_add, UInt64.toNat_one]
    have : (0x10000 : UInt64).toNat = 65536 := by decide
    omega
  simp [mkLocal, h.bound, hlt]

theorem mkSymbol_ok {asserts : Bool} {addr : UInt64} {n : Node} (h : mkSymbol asserts addr = .ok n) :
    n = ofSymbol addr := by
  unfold mkSymbol at h
  have h := assert_bind h
  exact (Except.ok.inj h).symm

theorem mkLocal_ok {asserts : Bool} {sym i : UInt64} {n : Node} (h : mkLocal asserts sym i = .ok n) :
    n = ofLocal sym i := by
  unfold mkLocal at h
  have h := assert_bind (assert_bind h)
  exact (Except.ok.inj h).symm

theorem toNat_ofSymbol {addr : UInt64} (h : Packable addr) :
    (ofSymbol addr).m_raw.toNat = (addr.toNat + 1) * 65536 := by
  unfold Packable at h
  simp only [ofSymbol, UInt64.toNat_shiftLeft, UInt64.toNat_add, UInt64.toNat_one]
  rw [Nat.shiftLeft_eq]
  have : (16 : UInt64).toNat % 64 = 16 := by decide
  rw [this]
  omega

theorem toNat_ofLocal {symbol local_idx : UInt64} (h : Packable symbol)
    (hi : local_idx.toNat < 65535) :
    (ofLocal symbol local_idx).m_raw.toNat = (symbol.toNat + 1) * 65536 + (local_idx.toNat + 1) := by
  have hsym := toNat_ofSymbol h
  have hadd : (local_idx + 1).toNat = local_idx.toNat + 1 := by
    rw [UInt64.toNat_add, UInt64.toNat_one]
    omega
  unfold ofSymbol at hsym
  unfold ofLocal
  rw [UInt64.toNat_or, hsym, hadd, show (65536 : Nat) = 2 ^ 16 by rfl, ← Nat.shiftLeft_eq,
    Nat.shiftLeft_add_eq_or_of_lt (by omega)]

/-- The parts of a word of 48 and 16 bits. -/
theorem symbol_toNat {n : Node} {a b : Nat} (h : n.m_raw.toNat = (a + 1) * 65536 + b)
    (hb : b < 65536) : n.symbol.toNat = a := by
  have hshift : (n.m_raw >>> 16).toNat = a + 1 := by
    rw [UInt64.toNat_shiftRight, h, show (16 : UInt64).toNat % 64 = 16 by decide,
      Nat.shiftRight_eq_div_pow]
    omega
  have hlt := n.m_raw.toNat_lt
  rw [symbol, UInt64.toNat_sub, hshift, UInt64.toNat_one]
  omega

theorem raw_local_toNat {n : Node} {a b : Nat} (h : n.m_raw.toNat = (a + 1) * 65536 + b)
    (hb : b < 65536) : (n.m_raw &&& 0xffff).toNat = b := by
  rw [UInt64.toNat_and, h, show (0xffff : UInt64).toNat = 2 ^ 16 - 1 by decide,
    Nat.and_two_pow_sub_one_eq_mod]
  omega

theorem symbol_ofSymbol {addr : UInt64} (h : Packable addr) : (ofSymbol addr).symbol = addr :=
  UInt64.toNat_inj.mp (symbol_toNat (b := 0) (by simpa using toNat_ofSymbol h) (by omega))

theorem local_idx_ofSymbol {addr : UInt64} (h : Packable addr) :
    (ofSymbol addr).local_idx = none := by
  have : (ofSymbol addr).m_raw &&& 0xffff = 0 :=
    UInt64.toNat_inj.mp (raw_local_toNat (b := 0) (by simpa using toNat_ofSymbol h) (by omega))
  simp [local_idx, this]

theorem valid_ofSymbol {addr : UInt64} (h : Packable addr) : (ofSymbol addr).valid = true := by
  have hne : (ofSymbol addr).m_raw ≠ 0 := by
    intro h0
    have := toNat_ofSymbol h
    rw [h0, UInt64.toNat_zero] at this
    omega
  simpa [valid] using hne

section
variable {sym i : UInt64} (h : Packable sym) (hi : i.toNat < 65535)
include h hi

theorem symbol_ofLocal : (ofLocal sym i).symbol = sym :=
  UInt64.toNat_inj.mp (symbol_toNat (toNat_ofLocal h hi) (by omega))

theorem local_idx_ofLocal : (ofLocal sym i).local_idx = some i.toUInt16 := by
  have hadd : (i + 1).toNat = i.toNat + 1 := by
    rw [UInt64.toNat_add, UInt64.toNat_one]
    omega
  have hraw : (ofLocal sym i).m_raw &&& 0xffff = i + 1 :=
    UInt64.toNat_inj.mp ((raw_local_toNat (toNat_ofLocal h hi) (by omega)).trans hadd.symm)
  have hne : i + 1 ≠ 0 := by
    intro h0
    rw [h0, UInt64.toNat_zero] at hadd
    omega
  simp [local_idx, hraw, hne]

theorem valid_ofLocal : (ofLocal sym i).valid = true := by
  have hne : (ofLocal sym i).m_raw ≠ 0 := by
    intro h0
    have := toNat_ofLocal h hi
    rw [h0, UInt64.toNat_zero] at this
    omega
  simpa [valid] using hne

end

/-! The symbol of any node. -/

theorem toNat_symbol_succ (n : Node) : (n.symbol + 1).toNat = n.m_raw.toNat / 65536 := by
  have h : n.symbol + (1 : UInt64) = n.m_raw >>> (16 : UInt64) := by
    rw [symbol, UInt64.sub_add_cancel]
  rw [h, UInt64.toNat_shiftRight, show (16 : UInt64).toNat % 64 = 16 by decide,
    Nat.shiftRight_eq_div_pow]

theorem mkSymbol_symbol (asserts : Bool) (n : Node) :
    mkSymbol asserts n.symbol = .ok (ofSymbol n.symbol) := by
  have h := toNat_symbol_succ n
  have hlt := n.m_raw.toNat_lt
  have hshift : (n.symbol + 1) >>> 48 = 0 := by
    apply UInt64.toNat_inj.mp
    rw [UInt64.toNat_shiftRight, h, show (48 : UInt64).toNat % 64 = 48 by decide,
      Nat.shiftRight_eq_div_pow]
    simp
    omega
  simp [mkSymbol, hshift]

theorem raw_ofSymbol_symbol (n : Node) :
    (ofSymbol n.symbol).m_raw.toNat = n.m_raw.toNat / 65536 * 65536 := by
  have hlt := n.m_raw.toNat_lt
  rw [ofSymbol, UInt64.toNat_shiftLeft, toNat_symbol_succ, show (16 : UInt64).toNat % 64 = 16 by decide,
    Nat.shiftLeft_eq]
  omega

theorem local_idx_eq_none {n : Node} : n.local_idx = none ↔ n.m_raw.toNat % 65536 = 0 := by
  have hraw : (n.m_raw &&& 0xffff).toNat = n.m_raw.toNat % 65536 := by
    rw [UInt64.toNat_and, show (0xffff : UInt64).toNat = 2 ^ 16 - 1 by decide,
      Nat.and_two_pow_sub_one_eq_mod]
  rw [← hraw]
  constructor
  · intro h
    by_contra hne
    have hne' : n.m_raw &&& 0xffff ≠ 0 := fun h0 => hne (by rw [h0]; rfl)
    simp [local_idx, hne'] at h
  · intro h
    have h0 : n.m_raw &&& 0xffff = 0 := UInt64.toNat_inj.mp (by simpa using h)
    simp [local_idx, h0]

theorem local_idx_ofSymbol_any (addr : UInt64) : (ofSymbol addr).local_idx = none := by
  rw [local_idx_eq_none, ofSymbol, UInt64.toNat_shiftLeft,
    show (16 : UInt64).toNat % 64 = 16 by decide, Nat.shiftLeft_eq]
  omega

/-- A node without a local index is the node of its symbol. -/
theorem ofSymbol_symbol {n : Node} (h : n.local_idx = none) : ofSymbol n.symbol = n := by
  have hraw : (ofSymbol n.symbol).m_raw = n.m_raw := by
    apply UInt64.toNat_inj.mp
    rw [raw_ofSymbol_symbol]
    have := local_idx_eq_none.mp h
    omega
  cases n
  exact congrArg Node.mk hraw

theorem packable_symbol {n : Node} (hv : n.valid = true) (h : n.local_idx = none) :
    Packable n.symbol := by
  have hmod := local_idx_eq_none.mp h
  have hlt := n.m_raw.toNat_lt
  have hne : n.m_raw.toNat ≠ 0 := by
    intro h0
    have : n.m_raw = 0 := UInt64.toNat_inj.mp (by simpa using h0)
    simp [valid, this] at hv
  have hsub : n.symbol.toNat = n.m_raw.toNat / 65536 - 1 := by
    have := symbol_toNat (n := n) (a := n.m_raw.toNat / 65536 - 1) (b := 0) (by omega) (by omega)
    exact this
  unfold Packable
  omega

end Node

/-! ## Edges -/

/-- The alternatives of `AnyEdge`, in order. -/
inductive EdgeKind
  | Assign | Load | Store | Call | Return | ArgumentDefinition | ArgumentSupply | DlsymPagePointer
  deriving DecidableEq, Repr

namespace EdgeKind

/-- The order in which `visitTuple` goes through the kinds. -/
def all : List EdgeKind :=
  [Assign, Load, Store, Call, Return, ArgumentDefinition, ArgumentSupply, DlsymPagePointer]

/-- Edges that carry an index. -/
def indexed : EdgeKind → Bool
  | Call | ArgumentDefinition | ArgumentSupply => true
  | _ => false

def NUM_COMPONENTS (k : EdgeKind) : Nat := if k.indexed then 3 else 2

theorem mem_all (k : EdgeKind) : k ∈ all := by cases k <;> decide

end EdgeKind

/-- An edge; the index is read of indexed edges only. -/
structure Edge where
  to_node : Node
  from_node : Node
  idx : UInt32
  deriving DecidableEq, Repr

/-! ## Zig-zag numbers -/

/-- `zigzag_encode` of the signed number with these bits. -/
def zigzag_encode (x : UInt32) : UInt32 := (2 * x) ^^^ ⟨x.toBitVec.sshiftRight 31⟩

def zigzag_decode (x : UInt32) : UInt32 := (x >>> 1) ^^^ (0 - (x &&& 1))

/-- The bits of a number that is not negative are doubled. -/
theorem zigzag_encode_of_lt {x : UInt32} (h : x.toNat < 2 ^ 31) : zigzag_encode x = 2 * x := by
  have hmsb : x.toBitVec.msb = false := by
    rw [BitVec.msb_eq_decide]
    simpa using h
  have hsign : x.toBitVec.sshiftRight 31 = 0 := by
    rw [BitVec.sshiftRight_eq_of_msb_false hmsb]
    apply BitVec.eq_of_toNat_eq
    simp [Nat.shiftRight_eq_div_pow]
    omega
  simp [zigzag_encode, hsign]

/-- Those of a negative one are doubled and inverted. -/
theorem zigzag_encode_of_le {x : UInt32} (h : 2 ^ 31 ≤ x.toNat) :
    zigzag_encode x = ~~~(2 * x) := by
  have hmsb : x.toBitVec.msb = true := by
    rw [BitVec.msb_eq_decide]
    simpa using h
  have hsign : x.toBitVec.sshiftRight 31 = BitVec.allOnes 32 := by
    rw [BitVec.sshiftRight_eq_of_msb_true hmsb]
    apply BitVec.eq_of_toNat_eq
    simp [Nat.shiftRight_eq_div_pow]
    omega
  apply UInt32.toBitVec_inj.mp
  rw [zigzag_encode, hsign, UInt32.toBitVec_xor, UInt32.toBitVec_not, BitVec.xor_allOnes]

@[simp] theorem zigzag_decode_encode (x : UInt32) : zigzag_decode (zigzag_encode x) = x := by
  have two : (2 : UInt32).toNat = 2 := rfl
  have one : (1 : UInt32).toNat % 32 = 1 := rfl
  have hlt := x.toNat_lt
  unfold zigzag_decode
  by_cases h : x.toNat < 2 ^ 31
  · rw [zigzag_encode_of_lt h]
    have hlow : (2 * x) &&& 1 = 0 := by
      apply UInt32.toNat_inj.mp
      rw [UInt32.toNat_and, UInt32.toNat_one, Nat.and_one_is_mod, UInt32.toNat_mul, two,
        UInt32.toNat_zero]
      omega
    have hhigh : (2 * x) >>> 1 = x := by
      apply UInt32.toNat_inj.mp
      rw [UInt32.toNat_shiftRight, UInt32.toNat_mul, Nat.shiftRight_eq_div_pow, two, one]
      omega
    simp [hlow, hhigh]
  · rw [zigzag_encode_of_le (by omega)]
    have hlow : ~~~(2 * x) &&& 1 = 1 := by
      apply UInt32.toNat_inj.mp
      rw [UInt32.toNat_and, UInt32.toNat_one, Nat.and_one_is_mod, UInt32.toNat_not,
        UInt32.toNat_mul, two]
      simp only [UInt32.size]
      omega
    have hhigh : ~~~(2 * x) >>> 1 = ~~~x := by
      apply UInt32.toNat_inj.mp
      rw [UInt32.toNat_shiftRight, UInt32.toNat_not, UInt32.toNat_not, UInt32.toNat_mul,
        Nat.shiftRight_eq_div_pow, two, one]
      simp only [UInt32.size]
      omega
    rw [hlow, hhigh]
    apply UInt32.toBitVec_inj.mp
    have hones : (0 - 1 : UInt32).toBitVec = BitVec.allOnes 32 := rfl
    rw [UInt32.toBitVec_xor, UInt32.toBitVec_not, hones, BitVec.xor_allOnes, BitVec.not_not]

end Bracelet.Edges
