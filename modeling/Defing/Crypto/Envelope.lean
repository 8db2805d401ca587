import Defing.Core.Model
import Defing.Lib.Bytes

/-!
# Envelope encryption

A secret is encrypted under a key of its own, and this key under the newest of
the master keys. The ciphertext names the master key by its position in the
ring, which only ever grows at its end.
-/

namespace Defing

/-! ## Foreign code -/

/-- AES-256-GCM, for keys of 32 bytes and nonces of 12. -/
class Aead where
  encrypt (key nonce plain : Bytes) : Except String Bytes
  decrypt (key nonce ct : Bytes) : Except String Bytes

/-- Everything can be encrypted, and nothing is decrypted but what has been encrypted so. -/
structure Aead.Ideal [Aead] : Prop where
  encrypt (key nonce plain : Bytes) (hk : key.length = 32) (hn : nonce.length = 12) : ∃ ct, Aead.encrypt key nonce plain = .ok ct
  decrypt (key nonce plain ct : Bytes) (hk : key.length = 32) (hn : nonce.length = 12) :
    Aead.decrypt key nonce ct = .ok plain ↔ Aead.encrypt key nonce plain = .ok ct
  key_inj (key key' nonce nonce' plain plain' ct : Bytes) (hk : key.length = 32) (hk' : key'.length = 32)
    (hn : nonce.length = 12) (hn' : nonce'.length = 12) (h : Aead.encrypt key nonce plain = .ok ct)
    (h' : Aead.encrypt key' nonce' plain' = .ok ct) : key = key'

class Base64 where
  encode (data : Bytes) : String
  decode (text : String) : Except String Bytes

def Base64.Lawful [Base64] : Prop := ∀ data, Base64.decode (Base64.encode data) = .ok data

class RingJson where
  toVec (list : List String) : Bytes
  fromSlice (raw : Bytes) : Except String (List String)

/-- The texts of keys are read back, and not from a beginning of what was written. -/
structure RingJson.Lawful [Base64] [RingJson] : Prop where
  round (keys : List Bytes) :
    RingJson.fromSlice (RingJson.toVec (keys.map Base64.encode)) = .ok (keys.map Base64.encode)
  cut (keys : List Bytes) (n : Nat) (h : n < (RingJson.toVec (keys.map Base64.encode)).length) :
    ∃ e, RingJson.fromSlice ((RingJson.toVec (keys.map Base64.encode)).take n) = .error e

inductive Fault
  | err (message : String)
  | panic (message : String)
  deriving DecidableEq, Repr

/-! ## The ring -/

/-- A key of 32 bytes: a master key (KEK), or the key of one secret (DEK). -/
def Kek : Type := { key : Bytes // key.length = 32 }
  deriving DecidableEq

def Nonce : Type := { nonce : Bytes // nonce.length = 12 }
  deriving DecidableEq

structure KeyRing where
  entries : List Kek
  deriving DecidableEq

namespace KeyRing

def new (initial : Kek) : KeyRing := ⟨[initial]⟩

def fromEntries (entries : List Kek) : KeyRing := ⟨entries⟩

def generation (ring : KeyRing) : Nat := ring.entries.length

def get (ring : KeyRing) (generation : Nat) : Option Kek :=
  if generation = 0 then none else ring.entries[generation - 1]?

def current (ring : KeyRing) : Except Fault Kek :=
  match ring.entries.getLast? with
  | some kek => .ok kek
  | none => .error (.panic "keyring non-empty")

def push (ring : KeyRing) (kek : Kek) : KeyRing := ⟨ring.entries ++ [kek]⟩

end KeyRing

section
variable [Aead] [Base64]

/-! ## Foreign code as it is called -/

def b64 (s : String) : Except Fault Bytes := (Base64.decode s).mapError fun e => .err s!"base64: {e}"

def nonceFromSlice (b : Bytes) : Except Fault Bytes :=
  if b.length = 12 then .ok b else .error (.panic "assertion `left == right` failed")

def newFromSlice (key : Bytes) : Except Fault Bytes :=
  if key.length = 32 then .ok key else .error (.err "key length: Invalid Length")

def aeadEncrypt (key nonce plain : Bytes) : Except Fault Bytes := (Aead.encrypt key nonce plain).mapError fun e => .err s!"aead: {e}"

def aeadDecrypt (key nonce ct : Bytes) : Except Fault Bytes := (Aead.decrypt key nonce ct).mapError fun e => .err s!"aead: {e}"

/-! ## Secrets -/

def wrapDek (kek : Kek) (dek : Bytes) (edekNonce : Nonce) : Except Fault (String × String) := do
  let edek ← aeadEncrypt kek.1 edekNonce.1 dek
  .ok (Base64.encode edek, Base64.encode edekNonce.1)

def unwrapDek (kek : Kek) (c : Ciphertext) : Except Fault Bytes := do
  let nonce ← b64 c.edekNonce
  let nonce ← nonceFromSlice nonce
  let edek ← b64 c.edek
  aeadDecrypt kek.1 nonce edek

structure Draw where
  dek : Kek
  nonce : Nonce
  edekNonce : Nonce

def encryptSecret (ring : KeyRing) (draw : Draw) (plain : Bytes) : Except Fault Ciphertext := do
  let ct ← aeadEncrypt draw.dek.1 draw.nonce.1 plain
  let kek ← ring.current
  let (edek, edekNonce) ← wrapDek kek draw.dek.1 draw.edekNonce
  .ok { enc := "aes-256-gcm", v := 1, dekV := ring.generation, nonce := Base64.encode draw.nonce.1, ct := Base64.encode ct,
        edek, edekNonce }

/-- The key of a generation; of one that is not known the newest key that there is. -/
def kekOf (ring : KeyRing) (generation : Nat) : Option Kek :=
  (ring.get generation).or ((List.range' 1 ring.generation).reverse.findSome? ring.get)

def decryptSecret (ring : KeyRing) (c : Ciphertext) : Except Fault Bytes :=
  match kekOf ring c.dekV with
  | none => .error (.err s!"no KEK for generation {c.dekV}")
  | some kek => do
    let dek ← unwrapDek kek c
    let dek ← newFromSlice dek
    let nonce ← b64 c.nonce
    let nonce ← nonceFromSlice nonce
    let ct ← b64 c.ct
    aeadDecrypt dek nonce ct

def rewrapDek (ring : KeyRing) (edekNonce : Nonce) (c : Ciphertext) : Except Fault Ciphertext :=
  match ring.get c.dekV with
  | none => .error (.err s!"unknown KEK generation {c.dekV}")
  | some kek => do
    let dek ← unwrapDek kek c
    let current ← ring.current
    let (edek, edekNonce) ← wrapDek current dek edekNonce
    .ok { c with dekV := ring.generation, edek, edekNonce }

/-! ## The ring file -/

variable [RingJson]

def saveRing (ring : KeyRing) : Bytes := RingJson.toVec (ring.entries.map fun kek => Base64.encode kek.1)

def ringKey (text : String) : Except Fault Kek :=
  match Base64.decode text with
  | .error e => .error (.err s!"ring key: {e}")
  | .ok bytes => if h : bytes.length = 32 then .ok ⟨bytes, h⟩ else .error (.err "ring key must be 32 bytes")

/-- `load_ring`; a file that cannot be read has no keys. -/
def loadRing (file : Option Bytes) : Except Fault (List Kek) :=
  match file with
  | none => .ok []
  | some raw =>
    match RingJson.fromSlice raw with
    | .error e => .error (.err s!"parse ring: {e}")
    | .ok list => list.mapM ringKey

end

end Defing
