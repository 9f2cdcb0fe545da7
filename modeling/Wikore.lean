import Wikore.Lib.Forest
import Wikore.Lib.Statement
import Wikore.Org.Tables
import Wikore.Access.Visibility
import Wikore.Lib.Query
import Wikore.Rag.EvidenceGate
import Wikore.Rag.RelationshipGate
import Wikore.Rag.Noninterference
import Wikore.Access.Resolver
import Wikore.Access.Epochs
import Wikore.Access.ScopeCache
import Wikore.Access.ScopeRace
import Wikore.Ingest.DocumentRepo
import Wikore.Ingest.Pipeline
import Wikore.Ingest.Steps
import Wikore.Ingest.ClaimToken
import Wikore.Ingest.Stranding
import Wikore.Ingest.Sweep
import Wikore.Lib.Matching
import Wikore.Ingest.Conservation
import Wikore.Ingest.RetryBudget
import Wikore.Scheduler.Outbox
import Wikore.Scheduler.OutboxClaims
import Wikore.Scheduler.EdgeVectors
import Wikore.Lib.Ledger
import Wikore.Scheduler.EdgeFreshness
import Wikore.Scheduler.EdgeOrphans
import Wikore.Org.TreeEdits
import Wikore.Org.EditIsolation
import Wikore.Org.ConcurrentTree
import Wikore.Access.GrantTriggers
import Wikore.Access.GrantBumps
import Wikore.Scheduler.ScopeSync
import Wikore.Scheduler.ResyncVersions
import Wikore.Scheduler.ChunkUpserts
import Wikore.Scheduler.ChunkPoints
import Wikore.Scheduler.ScopeAgreement
import Wikore.Lib.Volatile
import Wikore.Rag.LlmGate
import Wikore.Lib.Spending
import Wikore.Rag.TokenBucket
import Wikore.Access.PrivilegedSteps
import Wikore.Access.PrivilegedWorkflow
import Wikore.Access.PrivilegedScopes
import Wikore.Lib.Timeline
import Wikore.Rag.EdgeTables
import Wikore.Rag.EdgeLife
import Wikore.Rag.EdgeSteps
import Wikore.Rag.EdgeHistory
import Wikore.Access.AccessHistory
import Wikore.Versions.Promotion
import Wikore.Versions.PromoteUseCase
import Wikore.Lib.Fallible
import Wikore.Rag.PromptBlocks
import Wikore.Rag.Citations
import Wikore.Rag.ContextBuilder
import Wikore.Lib.Delimited
import Wikore.Rag.PromptFraming
import Wikore.Ingest.Chunker
import Wikore.Ingest.Reingest
import Wikore.Ingest.Convergence
import Wikore.Access.RoleAgreement
import Wikore.Org.ParentGuard
import Wikore.Lib.Sorting
import Wikore.Rag.Embedder
import Wikore.Scheduler.EmbedBatches
import Wikore.Rag.EdgeReview
import Wikore.Lib.Json
import Wikore.Lib.Utf8
import Wikore.Rag.QdrantFilters
import Wikore.Lib.Lines
import Wikore.Rag.LlmStream
import Wikore.Ingest.SectionTree
import Wikore.Ingest.PlainTextParser
import Wikore.Access.SignIn
import Wikore.Ingest.SectionPointers
import Wikore.Lib.NearestBelow
import Wikore.Ingest.SectionBuilders
import Wikore.Ingest.PdfOutline
import Wikore.Ingest.DocxParser
import Wikore.Lib.Weave
import Wikore.Lib.Budget
import Wikore.Ingest.OdtParser
import Wikore.Ingest.BuilderLaw
import Wikore.Ingest.HtmlParser
import Wikore.Ingest.MarkupReading
import Wikore.Ingest.HiddenElements
import Wikore.Ingest.MarkupSeams
import Wikore.Ingest.TagStripping
import Wikore.Ingest.Ustring
import Wikore.Ingest.ChunkCharacters
import Wikore.Ingest.HeadingPaths
import Wikore.Ingest.PlainTextContent
import Wikore.Access.JwtIdentity
import Wikore.Ingest.Rotation
import Wikore.Ingest.XlsxParser
import Wikore.Ingest.XlsxRows
import Wikore.Ingest.XlsxBudget
import Wikore.Api.OrgsTree
import Wikore.Lib.Interleave
import Wikore.Lib.Traced
import Wikore.Rag.AnswerUseCase
import Wikore.Rag.AnswerView
import Wikore.Lib.RangePartition
import Wikore.Scheduler.PartitionMaintainer
import Wikore.Scheduler.PartitionRuns
import Wikore.Ingest.ChunkedWords
import Wikore.Ingest.PptxParser
import Wikore.Ingest.PptxWords
import Wikore.Rag.EdgeBook
import Wikore.Rag.EdgeRefinement
import Wikore.Rag.EdgeTenants
