import Pyrk.SmsgRecords

/-!
# Opening a secure message

The sender writes into the payload how long the plaintext is, and bytes are copied or decompressed
by this number before it is compared with what is there.
-/

namespace Pyrk.SmsgDecrypt

open Script SecureMessage List

/-- Signed number of 32 bits. -/
def toInt32 (n : ℕ) : ℤ := if n%2^32 < 2^31 then (n%2^32 : ℕ) else (n%2^32 : ℕ)-2^32

section Bounds

variable {env : DecryptEnv} {vchPayload : List UInt8} {hdrLen lenPlain : ℕ}

end Bounds

end Pyrk.SmsgDecrypt
