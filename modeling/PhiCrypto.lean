import PhiCrypto.ByteString
import PhiCrypto.TracedExec
import PhiCrypto.PrefixDecoder
import PhiCrypto.OrderedMap
import PhiCrypto.LinearSigma
import PhiCrypto.RandomTape
import PhiCrypto.ArkSerialize
import PhiCrypto.Suite
import PhiCrypto.Transcripts
import PhiCrypto.SmallSuite
import PhiCrypto.WireReader
import PhiCrypto.SelectiveProofWire
import PhiCrypto.VoteProofWire
import PhiCrypto.BbsPlus
import PhiCrypto.BbsPlusCodec
import PhiCrypto.BbsPlusAlgebra
import PhiCrypto.BbsPlusProver
import PhiCrypto.Selective
import PhiCrypto.SelectiveBoundary
import PhiCrypto.Voting
import PhiCrypto.Provers
import PhiCrypto.Issuer
import PhiCrypto.Completeness
import PhiCrypto.VoteSoundness
import PhiCrypto.NonMalleability
import PhiCrypto.IssuerBinding
import PhiCrypto.IdentityKey
import PhiCrypto.Reencoding
import PhiCrypto.Unlinkability
import PhiCrypto.VoteWire
import PhiCrypto.PairingCrypto
import PhiCrypto.PairingCryptoVerifier
import PhiCrypto.PairingCryptoProver
import PhiCrypto.Bbs2023
import PhiCrypto.Bbs2023Completeness
import PhiCrypto.Bbs2023Wire
import PhiCrypto.Bbs2023Binding
import PhiCrypto.Bbs2023Extraction
import PhiCrypto.Bbs2023Issuance
import PhiCrypto.Bbs2023Runs
import PhiCrypto.Bbs2023Unlinkability
import PhiCrypto.Did
import PhiCrypto.WebAuthn
import PhiCrypto.Ffi
import PhiCrypto.FailClosed
import PhiCrypto.DedupKey
import PhiCrypto.VoteCompleteness
import PhiCrypto.RevealedDecoders
import PhiCrypto.SuiteContract
import PhiCrypto.ClaimCeiling
import PhiCrypto.Preimages
import PhiCrypto.Tally
import PhiCrypto.PrefixFree
import PhiCrypto.BlindedMul
import PhiCrypto.WebAuthnCeremony
import PhiCrypto.Interleaving
import PhiCrypto.ParamsCache
import PhiCrypto.Der
import PhiCrypto.EcdsaCore
import PhiCrypto.EcdsaLaws
import PhiCrypto.Sha256
import PhiCrypto.SmallCurve
import PhiCrypto.Signing
import PhiCrypto.DidIdentifier
import PhiCrypto.P256
import PhiCrypto.RawSignatures
import PhiCrypto.Radix
import PhiCrypto.EnglishWords
import PhiCrypto.Mnemonic
import PhiCrypto.Decimal
import PhiCrypto.DerivationPath
import PhiCrypto.Sha512
import PhiCrypto.KeyPair
import PhiCrypto.ExtendedKey
import PhiCrypto.Seed
import PhiCrypto.PublicDerivation
import PhiCrypto.ByteLanes
import PhiCrypto.ClientDataJson
import PhiCrypto.WebAuthnClient
